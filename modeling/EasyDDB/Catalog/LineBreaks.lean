import EasyDDB.Catalog.Etcd

/-! # What `EncodeBase64` adds to the standard encoding

From the nineteenth group on every group has a line break before its padding. Without the breaks the text is the
standard one; `DecodeBase64` reads the standard text back, but takes the characters of a break for digits. -/
namespace EasyDDB.Etcd
set_option autoImplicit false

variable {bytes : Bytes} {lineLength : Nat}

/-! ## Breaks and padding -/

/-- Neither CR nor LF. -/
def notBreak (c : Char) : Bool := c ≠ '\r' ∧ c ≠ '\n'

theorem notBreak_digit (n : Nat) : notBreak (Base64.digit n) = true := by
  have hall : Base64.alphabet.all notBreak = true := by decide
  exact List.all_eq_true.1 hall _ (Base64.digit_mem n)

theorem notBreak_of_mem_encode {c : Char} (h : c ∈ Base64.encode bytes) : notBreak c = true := by
  have hall : Base64.alphabet.all notBreak = true := by decide
  obtain h | rfl := Base64.mem_encode h
  · exact List.all_eq_true.1 hall c h
  · decide

theorem filter_lineEnd (n : Nat) : (lineEnd n).filter notBreak = [] := by
  unfold lineEnd
  split_ifs <;> rfl

theorem encodeLines_filter : (encodeLines lineLength bytes).filter notBreak = Base64.encode bytes := by
  have hpad : notBreak '=' = true := by decide
  induction bytes using Base64.encode.induct generalizing lineLength with
  | case1 => rfl
  | case2 a => simp [encodeLines, Base64.encode, notBreak_digit, filter_lineEnd, hpad]
  | case3 a b => simp [encodeLines, Base64.encode, notBreak_digit, filter_lineEnd, hpad]
  | case4 a b c rest ih => simp [encodeLines, Base64.encode, notBreak_digit, filter_lineEnd, ih]

theorem length_lineEnd (n : Nat) : (lineEnd n).length = if n ≥ 76 then 2 else 0 := by
  unfold lineEnd
  split_ifs <;> rfl

/-- Four characters for each group, and two for each break. -/
theorem length_encodeLines : (encodeLines lineLength bytes).length =
    4 * ((bytes.length + 2) / 3) + 2 * ((bytes.length + 2) / 3 - (75 - lineLength) / 4) := by
  induction bytes using Base64.encode.induct generalizing lineLength with
  | case1 => simp [encodeLines]
  | case2 a =>
    simp only [encodeLines, List.length_append, List.length_cons, List.length_nil, length_lineEnd]
    split_ifs <;> omega
  | case3 a b =>
    simp only [encodeLines, List.length_append, List.length_cons, List.length_nil, length_lineEnd]
    split_ifs <;> omega
  | case4 a b c rest ih =>
    simp only [encodeLines, List.length_append, List.length_cons, List.length_nil, length_lineEnd, ih]
    split_ifs <;> omega

theorem count_lineEnd (n : Nat) : (lineEnd n).count '=' = 0 := by
  unfold lineEnd
  split_ifs <;> rfl

theorem count_digits {l : List Char} (h : ∀ c ∈ l, c ∈ Base64.alphabet) : l.count '=' = 0 := by
  have hpad : '=' ∉ Base64.alphabet := by decide
  exact List.count_eq_zero.2 fun hmem => hpad (h _ hmem)

theorem count_encodeLines :
    (encodeLines lineLength bytes).count '=' + bytes.length = 3 * ((bytes.length + 2) / 3) := by
  induction bytes using Base64.encode.induct generalizing lineLength with
  | case1 => rfl
  | case2 a =>
    rw [encodeLines, List.count_append, List.count_append, count_lineEnd, count_digits (by simp [Base64.digit_mem])]
    simp
  | case3 a b =>
    rw [encodeLines, List.count_append, List.count_append, count_lineEnd, count_digits (by simp [Base64.digit_mem])]
    simp
  | case4 a b c rest ih =>
    rw [encodeLines, List.count_append, List.count_append, count_lineEnd, count_digits (by simp [Base64.digit_mem])]
    have hrest : (encodeLines (lineLength + 4) rest).count '=' + rest.length = 3 * ((rest.length + 2) / 3) := ih
    simp only [List.length_cons]
    omega

/-- A group that reaches the end of the line has a break. -/
theorem break_infix (hne : bytes ≠ []) (h : 76 ≤ lineLength + 4 * ((bytes.length + 2) / 3)) :
    ['\r', '\n'] <:+: encodeLines lineLength bytes := by
  have hbreak : ∀ {n : Nat}, 76 ≤ n → ∀ pre post, ['\r', '\n'] <:+: pre ++ lineEnd n ++ post := by
    intro n hn pre post
    rw [lineEnd, if_pos hn]
    exact ⟨pre, post, rfl⟩
  induction bytes using Base64.encode.induct generalizing lineLength with
  | case1 => exact absurd rfl hne
  | case2 a => exact hbreak (by simpa using h) _ _
  | case3 a b => exact hbreak (by simpa using h) _ _
  | case4 a b c rest ih =>
    by_cases hhere : 76 ≤ lineLength + 4
    · exact hbreak hhere _ _
    · simp only [List.length_cons] at h
      have hrest : rest ≠ [] := by
        rintro rfl
        simp only [List.length_nil] at h
        omega
      have hlater : ['\r', '\n'] <:+: encodeLines (lineLength + 4) rest := ih hrest (by omega)
      exact hlater.trans (List.suffix_append _ _).isInfix

/-- `EncodeBase64` is the standard encoding up to line breaks, and there are breaks from 55 bytes on. -/
theorem encode_standard_up_to_breaks (junk : Junk) (hnul : 0 ∉ bytes) :
    (encodeBase64 junk bytes).filter notBreak = Base64.encode bytes ∧
      (['\r', '\n'] <:+: encodeBase64 junk bytes ↔ 54 < bytes.length) := by
  rw [encodeBase64, encodeFrom_eq_lines junk hnul]
  refine ⟨encodeLines_filter, fun hbreak => ?_, fun hlong => ?_⟩
  · by_contra hshort
    rw [encodeLines_short (by omega)] at hbreak
    have hcr := notBreak_of_mem_encode (hbreak.subset (List.mem_cons_self ..))
    exact absurd hcr (by decide)
  · refine break_infix ?_ (by omega)
    rintro rfl
    simp at hlong

/-- The text for sixty letters has a break, and without it is the standard text. -/
theorem sixty_letters_broken :
    (encodeBase64 plainJunk (List.replicate 60 97)).filter notBreak = Base64.encode (List.replicate 60 97) ∧
      ['\r', '\n'] <:+: encodeBase64 plainJunk (List.replicate 60 97) := by
  have hnul : 0 ∉ List.replicate 60 (97 : UInt8) := by decide
  obtain ⟨hfilter, hbreak⟩ := encode_standard_up_to_breaks plainJunk hnul
  exact ⟨hfilter, hbreak.2 (by simp)⟩

/-! ## Reading the standard text -/

/-- Every `asc[j]` that is read in a round has been set in it. -/
def GroupSet (t₀ t₁ t₂ t₃ : Char) : Prop :=
  t₀ ∈ base64Key ∧ t₁ ∈ base64Key ∧ (¬ (t₂ = '=' ∧ t₃ = '=') → t₂ ∈ base64Key) ∧ (t₃ ≠ '=' → t₃ ∈ base64Key)

/-- No index is read that was not set, and nothing is read behind the end of the text. -/
def IndicesSet : List Char → Prop
  | [] => True
  | a :: b :: c :: d :: rest => GroupSet a b c d ∧ IndicesSet rest
  | _ => False

theorem indicesSet_encode (bytes : Bytes) : IndicesSet (Base64.encode bytes) := by
  have hdigit : ∀ n, Base64.digit n ∈ base64Key := Base64.digit_mem
  induction bytes using Base64.encode.induct with
  | case1 => trivial
  | case2 a => exact ⟨⟨hdigit _, hdigit _, fun h => absurd ⟨rfl, rfl⟩ h, fun h => absurd rfl h⟩, trivial⟩
  | case3 a b => exact ⟨⟨hdigit _, hdigit _, fun _ => hdigit _, fun h => absurd rfl h⟩, trivial⟩
  | case4 a b c rest ih => exact ⟨⟨hdigit _, hdigit _, fun _ => hdigit _, fun _ => hdigit _⟩, ih⟩

/-- `DecodeBase64` reads the standard text of any bytes back, with indices that are set. -/
theorem decode_standard (bytes : Bytes) :
    IndicesSet (Base64.encode bytes) ∧ ∀ junk, decodeBase64 junk (Base64.encode bytes) = bytes :=
  ⟨indicesSet_encode bytes, fun junk => decodeBase64_encode junk bytes⟩

/-! ## Reading a text with breaks -/

theorem length_decodeGroup (junk : Junk) (round : Nat) (t₀ t₁ t₂ t₃ : Char) :
    3 ≤ (decodeGroup junk round t₀ t₁ t₂ t₃).length + [t₀, t₁, t₂, t₃].count '=' := by
  unfold decodeGroup
  split_ifs with h h'
  · obtain ⟨rfl, rfl⟩ := h
    simp only [List.count_cons, List.count_nil, List.length_cons, List.length_nil, beq_self_eq_true, if_true]
    omega
  · subst h'
    simp only [List.count_cons, List.count_nil, List.length_cons, List.length_nil, beq_self_eq_true, if_true]
    omega
  · simp

/-- Three bytes are read from every four characters, but for the padding; a last round that is not complete gives one
byte at least. -/
theorem length_decodeFrom (junk : Junk) (round : Nat) (t : List Char) :
    3 * (t.length / 4) + (if t.length % 4 = 0 then 0 else 1) ≤ (decodeFrom junk round t).length + t.count '=' := by
  have hround : ∀ round t₀ t₁ t₂ t₃, 1 ≤ (decodeGroup junk round t₀ t₁ t₂ t₃).length := fun round t₀ t₁ t₂ t₃ =>
    List.length_pos_iff.2 (decodeGroup_ne_nil junk round t₀ t₁ t₂ t₃)
  induction round, t using decodeFrom.induct with
  | case1 round => simp
  | case2 round a =>
    have hlast := hround round a '\x00' (junk.char 2) (junk.char 3)
    simp only [decodeFrom, List.length_cons, List.length_nil]
    split_ifs <;> omega
  | case3 round a b =>
    have hlast := hround round a b '\x00' (junk.char 3)
    simp only [decodeFrom, List.length_cons, List.length_nil]
    split_ifs <;> omega
  | case4 round a b c =>
    have hlast := hround round a b c '\x00'
    simp only [decodeFrom, List.length_cons, List.length_nil]
    split_ifs <;> omega
  | case5 round a b c d rest ih =>
    have hgroup := length_decodeGroup junk round a b c d
    have hcount : ([a, b, c, d] ++ rest).count '=' = [a, b, c, d].count '=' + rest.count '=' := List.count_append
    simp only [List.cons_append, List.nil_append] at hcount
    simp only [decodeFrom, List.length_append, List.length_cons, hcount]
    split_ifs at ih ⊢ <;> omega

/-- Breaks make the text that is read back longer than it was. -/
theorem decode_encode_longer (junk junk' : Junk) (hnul : 0 ∉ bytes) (hlong : 54 < bytes.length) :
    bytes.length < (decodeBase64 junk' (encodeBase64 junk bytes)).length := by
  have hread := length_decodeFrom junk' 0 (encodeBase64 junk bytes)
  rw [decodeBase64]
  rw [encodeBase64, encodeFrom_eq_lines junk hnul] at hread ⊢
  have hlength : (encodeLines 0 bytes).length = _ := length_encodeLines
  have hcount : (encodeLines 0 bytes).count '=' + bytes.length = _ := count_encodeLines
  split_ifs at hread <;> omega

/-- `DecodeBase64` undoes `EncodeBase64` exactly on what fits one line. -/
theorem decode_encode_iff (junk junk' : Junk) (hnul : 0 ∉ bytes) :
    decodeBase64 junk' (encodeBase64 junk bytes) = bytes ↔ bytes.length ≤ 54 := by
  constructor
  · intro heq
    by_contra hlong
    have hlonger := decode_encode_longer junk junk' hnul (by omega)
    rw [heq] at hlonger
    exact absurd hlonger (lt_irrefl _)
  · intro hshort
    rw [encodeBase64_eq junk ⟨hnul, hshort⟩, decodeBase64_encode]

/-- Fifty-four letters are read back. -/
theorem short_line_read_back :
    decodeBase64 plainJunk (encodeBase64 plainJunk (List.replicate 54 97)) = List.replicate 54 97 :=
  (decode_encode_iff plainJunk plainJunk (by decide)).2 (by simp)

/-- Fifty-five are not, whatever stands in the unset variables. -/
theorem long_line_not_read_back :
    0 ∉ List.replicate 55 (97 : UInt8) ∧ ∀ junk junk',
      decodeBase64 junk' (encodeBase64 junk (List.replicate 55 97)) ≠ List.replicate 55 97 := by
  have hnul : 0 ∉ List.replicate 55 (97 : UInt8) := by decide
  refine ⟨hnul, fun junk junk' heq => ?_⟩
  have hlonger := decode_encode_longer junk junk' hnul (by simp)
  rw [heq] at hlonger
  exact absurd hlonger (lt_irrefl _)

end EasyDDB.Etcd
