import EasyDDB.Lib.Base64
import EasyDDB.Lib.Json
import Mathlib.Data.List.Induction
import Mathlib.Tactic.NormNum

/-! # Talking to etcd

`EncodeBase64`, `DecodeBase64`, `string2json` and `json2string`, with any server that stores what the requests of
`etcd_opt` put and answers range requests.  Keys and values are bytes, requests and answers are texts.

What the two Base64 functions find behind the end of a string and in a variable that was not set is arbitrary: it
is given by `Junk`, for the array `asc` anew in every round.  Masks and shifts of a signed `char` act on its eight bits. -/
namespace EasyDDB.Etcd
open Json
set_option autoImplicit false

abbrev Bytes := List UInt8

structure Junk where
  byte : UInt8
  char : Nat → Char
  int : Nat → Nat → Nat

/-! ## Base64 -/

def base64Key : List Char := "ABCDEFGHIJKLMNOPQRSTUVWXYZabcdefghijklmnopqrstuvwxyz0123456789+/".toList

def keyAt (k : Nat) : Char := base64Key.getD k 'A'

/-- `strlen(temp)` -/
def strlen (t₀ t₁ t₂ : UInt8) : Nat := if t₀ = 0 then 0 else if t₁ = 0 then 1 else if t₂ = 0 then 2 else 3

def lineEnd (lineLength : Nat) : List Char := if lineLength ≥ 76 then ['\r', '\n'] else []

/-- One round of `EncodeBase64`. -/
def encodeGroup (lineLength : Nat) (t₀ t₁ t₂ : UInt8) : List Char :=
  let a := t₀.toNat
  let b := t₁.toNat
  let c := t₂.toNat
  match strlen t₀ t₁ t₂ with
  | 1 => [keyAt ((a &&& 0xFC) >>> 2), keyAt ((a &&& 0x3) <<< 4)] ++ lineEnd lineLength ++ ['=', '=']
  | 2 =>
    [keyAt ((a &&& 0xFC) >>> 2), keyAt ((a &&& 0x3) <<< 4 ||| (b &&& 0xF0) >>> 4), keyAt ((b &&& 0x0F) <<< 2)] ++
      lineEnd lineLength ++ ['=']
  | 3 =>
    [keyAt ((a &&& 0xFC) >>> 2), keyAt ((a &&& 0x3) <<< 4 ||| (b &&& 0xF0) >>> 4),
      keyAt ((b &&& 0xF) <<< 2 ||| (c &&& 0xC0) >>> 6), keyAt (c &&& 0x3F)] ++ lineEnd lineLength
  | _ => []

/-- The loop of `EncodeBase64`; behind the last byte stands a zero, and behind that anything. -/
def encodeFrom (junk : Junk) : Nat → Bytes → List Char
  | _, [] => []
  | lineLength, [a] => encodeGroup (lineLength + 4) a 0 junk.byte
  | lineLength, [a, b] => encodeGroup (lineLength + 4) a b 0
  | lineLength, a :: b :: c :: rest =>
    encodeGroup (lineLength + 4) a b c ++ encodeFrom junk (lineLength + 4) rest

/-- `EncodeBase64` -/
def encodeBase64 (junk : Junk) (inputStr : Bytes) : List Char := encodeFrom junk 0 inputStr

/-- `asc[j]`, which keeps what it was where the character is no digit. -/
def asc (junk : Junk) (round j : Nat) (c : Char) : Nat := (base64Key.idxOf? c).getD (junk.int round j)

/-- One round of `DecodeBase64`. -/
def decodeGroup (junk : Junk) (round : Nat) (t₀ t₁ t₂ t₃ : Char) : Bytes :=
  let a₀ := asc junk round 0 t₀
  let a₁ := asc junk round 1 t₁
  let a₂ := asc junk round 2 t₂
  let a₃ := asc junk round 3 t₃
  if t₂ = '=' ∧ t₃ = '=' then [UInt8.ofNat (a₀ <<< 2 ||| a₁ <<< 2 >>> 6)]
  else if t₃ = '=' then
    [UInt8.ofNat (a₀ <<< 2 ||| a₁ <<< 2 >>> 6), UInt8.ofNat (a₁ <<< 4 ||| a₂ <<< 2 >>> 4)]
  else
    [UInt8.ofNat (a₀ <<< 2 ||| a₁ <<< 2 >>> 6), UInt8.ofNat (a₁ <<< 4 ||| a₂ <<< 2 >>> 4),
      UInt8.ofNat (a₂ <<< 6 ||| a₃ <<< 2 >>> 2)]

/-- The loop of `DecodeBase64`. -/
def decodeFrom (junk : Junk) : Nat → List Char → Bytes
  | _, [] => []
  | round, [a] => decodeGroup junk round a '\x00' (junk.char 2) (junk.char 3)
  | round, [a, b] => decodeGroup junk round a b '\x00' (junk.char 3)
  | round, [a, b, c] => decodeGroup junk round a b c '\x00'
  | round, a :: b :: c :: d :: rest => decodeGroup junk round a b c d ++ decodeFrom junk (round + 1) rest

/-- `DecodeBase64` -/
def decodeBase64 (junk : Junk) (inputStr : List Char) : Bytes := decodeFrom junk 0 inputStr

/-! ## Requests and answers -/

/-- `string2json` -/
def string2json (junk : Junk) (key value : Bytes) : List Char :=
  if value ≠ [] then
    "\x7b\"key\": \"".toList ++ encodeBase64 junk key ++ "\", \"value\": \"".toList ++ encodeBase64 junk value ++
      "\"\x7d".toList
  else "\x7b\"key\":\"".toList ++ encodeBase64 junk key ++ "\"\x7d".toList

/-- `FastWriter::write` -/
def fastWrite (v : Json) : List Char := print v ++ ['\n']

def substr (s : List Char) (pos n : Nat) : List Char := (s.drop pos).take n

/-- `json2string` -/
def json2string (junk : Junk) (inputStr : List Char) : Bytes :=
  match parse inputStr with
  | none => []
  | some root =>
    let nodeStr := fastWrite (root.get "kvs".toList)
    match parse (substr nodeStr 1 (nodeStr.length - 2)) with
    | none => []
    | some node =>
      let cur := fastWrite (node.get "value".toList)
      decodeBase64 junk (substr cur 1 (cur.length - 3))

/-- The pairs the server holds. -/
abbrev Pairs := Bytes → Option Bytes

/-- The bytes of a member of a request; a member that is missing is empty. -/
def bytesOf : Json → Option Bytes
  | .null => some []
  | .str s => Base64.decode s
  | _ => none

/-- The key and the value of a request, if both are Base64 texts. -/
def requestPair (request : List Char) : Option (Bytes × Bytes) := do
  let root ← parse request
  let key ← bytesOf (root.get "key".toList)
  let value ← bytesOf (root.get "value".toList)
  some (key, value)

/-- The members an answer has besides `kvs`, and an entry besides `key` and `value`: revisions, counts, a header. -/
structure Extras where
  answer : Members
  entry : Bytes → Members
  answer_kvs : Members.get? "kvs".toList answer = none
  entry_value : ∀ key, Members.get? "value".toList (entry key) = none

/-- An entry of an answer; an empty value is left out. -/
def entryOf (extras : Extras) (key value : Bytes) : Json :=
  .obj (.cons "key".toList (.str (Base64.encode key))
    (if value = [] then extras.entry key else .cons "value".toList (.str (Base64.encode value)) (extras.entry key)))

/-- The answer to a range request for one key. -/
def answerTo (extras : Extras) (key : Bytes) : Option Bytes → Json
  | none => .obj extras.answer
  | some value => .obj (.cons "kvs".toList (.arr (.cons (entryOf extras key value) .nil)) extras.answer)

/-- Any server that stores the pair of a request and answers a range request with the pair of its key. What it does with a
request from which no pair is read, and what it answers to a PUT, is left open. -/
structure Server where
  put : Pairs → List Char → Pairs
  putAnswer : Pairs → List Char → List Char
  range : Pairs → List Char → List Char
  extras : Pairs → Extras
  put_eq : ∀ pairs request key value, requestPair request = some (key, value) →
    put pairs request = Function.update pairs key (some value)
  range_eq : ∀ pairs request key value, requestPair request = some (key, value) →
    range pairs request = print (answerTo (extras pairs) key (pairs key))

/-- `etcd_set`, and `etcd_get` in the state it leaves. -/
def etcdSet (junk : Junk) (server : Server) (pairs : Pairs) (put : Bytes × Bytes) : Pairs :=
  server.put pairs (string2json junk put.1 put.2)

def etcdGet (junk : Junk) (server : Server) (pairs : Pairs) (key : Bytes) : Bytes :=
  json2string junk (server.range pairs (string2json junk key []))

/-! ## The two Base64 functions -/

theorem keyAt_eq_digit (k : Nat) : keyAt k = Base64.digit k := rfl

theorem masks (a : UInt8) :
    (a.toNat &&& 0xFC) >>> 2 = a.toNat / 4 ∧ (a.toNat &&& 0x3) <<< 4 = a.toNat % 4 * 16 ∧
    (a.toNat &&& 0xF0) >>> 4 = a.toNat / 16 ∧ (a.toNat &&& 0x0F) <<< 2 = a.toNat % 16 * 4 ∧
    (a.toNat &&& 0xC0) >>> 6 = a.toNat / 64 ∧ a.toNat &&& 0x3F = a.toNat % 64 := by
  have hall : ∀ n : Fin 256, (n.1 &&& 0xFC) >>> 2 = n.1 / 4 ∧ (n.1 &&& 0x3) <<< 4 = n.1 % 4 * 16 ∧
      (n.1 &&& 0xF0) >>> 4 = n.1 / 16 ∧ (n.1 &&& 0x0F) <<< 2 = n.1 % 16 * 4 ∧
      (n.1 &&& 0xC0) >>> 6 = n.1 / 64 ∧ n.1 &&& 0x3F = n.1 % 64 := by decide +kernel
  exact hall ⟨a.toNat, a.toNat_lt⟩

theorem or_eq_add {m : Nat} (k x : Nat) (hm : m = 2 ^ k) {y : Nat} (h : y < m) : x * m ||| y = x * m + y := by
  subst hm
  rw [Nat.mul_comm, Nat.two_pow_add_eq_or_of_lt h]

/-- The standard encoding with the breaks of `EncodeBase64`, which come before the padding of a group. -/
def encodeLines : Nat → Bytes → List Char
  | _, [] => []
  | lineLength, [a] =>
    [Base64.digit (a.toNat / 4), Base64.digit (a.toNat % 4 * 16)] ++ lineEnd (lineLength + 4) ++ ['=', '=']
  | lineLength, [a, b] =>
    [Base64.digit (a.toNat / 4), Base64.digit (a.toNat % 4 * 16 + b.toNat / 16), Base64.digit (b.toNat % 16 * 4)] ++
      lineEnd (lineLength + 4) ++ ['=']
  | lineLength, a :: b :: c :: rest =>
    [Base64.digit (a.toNat / 4), Base64.digit (a.toNat % 4 * 16 + b.toNat / 16),
      Base64.digit (b.toNat % 16 * 4 + c.toNat / 64), Base64.digit (c.toNat % 64)] ++ lineEnd (lineLength + 4) ++
      encodeLines (lineLength + 4) rest

/-- Without zero bytes `strlen` finds the bytes of a group, and the masks take the right bits of each. -/
theorem encodeFrom_eq_lines (junk : Junk) {bytes : Bytes} (hnul : 0 ∉ bytes) (lineLength : Nat) :
    encodeFrom junk lineLength bytes = encodeLines lineLength bytes := by
  induction bytes using Base64.encode.induct generalizing lineLength with
  | case1 => rfl
  | case2 a =>
    obtain ⟨hhigh, hlow, -⟩ := masks a
    have ha : a ≠ 0 := fun h => hnul (by simp [h])
    have hlen : strlen a 0 junk.byte = 1 := by simp [strlen, ha]
    simp only [encodeFrom, encodeGroup, hlen, hhigh, hlow, keyAt_eq_digit, encodeLines]
  | case3 a b =>
    obtain ⟨hhigh, hlow, -⟩ := masks a
    obtain ⟨-, -, hhigh', hlow', -⟩ := masks b
    have ha : a ≠ 0 := fun h => hnul (by simp [h])
    have hb : b ≠ 0 := fun h => hnul (by simp [h])
    have hlen : strlen a b 0 = 2 := by simp [strlen, ha, hb]
    have hor := or_eq_add 4 (a.toNat % 4) (by norm_num) (show b.toNat / 16 < 16 by have := b.toNat_lt; omega)
    simp only [encodeFrom, encodeGroup, hlen, hhigh, hlow, hhigh', hlow', keyAt_eq_digit, encodeLines]
    rw [hor]
  | case4 a b c rest ih =>
    obtain ⟨hhigh, hlow, -⟩ := masks a
    obtain ⟨-, -, hhigh', hlow', -⟩ := masks b
    obtain ⟨-, -, -, -, hhigh'', hlow''⟩ := masks c
    simp only [List.mem_cons, not_or] at hnul
    obtain ⟨ha, hb, hc, hrest⟩ := hnul
    have hlen : strlen a b c = 3 := by simp [strlen, Ne.symm ha, Ne.symm hb, Ne.symm hc]
    have hor := or_eq_add 4 (a.toNat % 4) (by norm_num) (show b.toNat / 16 < 16 by have := b.toNat_lt; omega)
    have hor' := or_eq_add 2 (b.toNat % 16) (by norm_num) (show c.toNat / 64 < 4 by have := c.toNat_lt; omega)
    simp only [encodeFrom, encodeGroup, hlen, hhigh, hlow, hhigh', hlow', hhigh'', hlow'', keyAt_eq_digit, encodeLines,
      ih hrest]
    rw [hor, hor']

theorem lineEnd_short {lineLength : Nat} (h : lineLength < 76) : lineEnd lineLength = [] := if_neg (by omega)

theorem encodeLines_short {bytes : Bytes} {lineLength : Nat} (hline : lineLength + 4 * ((bytes.length + 2) / 3) < 76) :
    encodeLines lineLength bytes = Base64.encode bytes := by
  induction bytes using Base64.encode.induct generalizing lineLength with
  | case1 => rfl
  | case2 a =>
    simp only [List.length_cons, List.length_nil] at hline
    rw [encodeLines, lineEnd_short (by omega)]
    rfl
  | case3 a b =>
    simp only [List.length_cons, List.length_nil] at hline
    rw [encodeLines, lineEnd_short (by omega)]
    rfl
  | case4 a b c rest ih =>
    simp only [List.length_cons] at hline
    rw [encodeLines, lineEnd_short (by omega), ih (by omega)]
    rfl

/-- A key or a value without a zero byte whose encoding stays on one line. -/
structure Transferable (bytes : Bytes) : Prop where
  nulFree : 0 ∉ bytes
  short : bytes.length ≤ 54

theorem encodeBase64_eq (junk : Junk) {bytes : Bytes} (h : Transferable bytes) :
    encodeBase64 junk bytes = Base64.encode bytes := by
  have hshort := h.short
  rw [encodeBase64, encodeFrom_eq_lines junk h.nulFree, encodeLines_short (by omega)]

theorem asc_digit (junk : Junk) (round j : Nat) {n : Nat} (h : n < 64) : asc junk round j (Base64.digit n) = n := by
  have hvalue : base64Key.idxOf? (Base64.digit n) = some n := Base64.value?_digit h
  rw [asc, hvalue, Option.getD_some]

theorem rounds {w x y z : Nat} (hx : x < 64) (hy : y < 64) (hz : z < 64) :
    UInt8.ofNat (w <<< 2 ||| x <<< 2 >>> 6) = Base64.byte₁ w x ∧
    UInt8.ofNat (x <<< 4 ||| y <<< 2 >>> 4) = Base64.byte₂ x y ∧
    UInt8.ofNat (y <<< 6 ||| z <<< 2 >>> 2) = Base64.byte₃ y z := by
  have hleft : ∀ n, n <<< 2 = n * 4 ∧ n <<< 4 = n * 16 ∧ n <<< 6 = n * 64 := by simp [Nat.shiftLeft_eq]
  have hright : ∀ n, n >>> 2 = n / 4 ∧ n >>> 4 = n / 16 ∧ n >>> 6 = n / 64 := by simp [Nat.shiftRight_eq_div_pow]
  simp only [hleft, hright]
  refine ⟨?_, ?_, ?_⟩
  · rw [show x * 4 / 64 = x / 16 by omega, or_eq_add 2 w (by norm_num) (by omega), Base64.byte₁]
  · rw [show y * 4 / 16 = y / 4 by omega, or_eq_add 4 x (by norm_num) (by omega), Base64.byte₂]
  · rw [show z * 4 / 4 = z by omega, or_eq_add 6 y (by norm_num) (by omega), Base64.byte₃]

theorem decodeFrom_encode (junk : Junk) (bytes : Bytes) (round : Nat) :
    decodeFrom junk round (Base64.encode bytes) = bytes := by
  induction bytes using Base64.encode.induct generalizing round with
  | case1 => rfl
  | case2 a =>
    have ha := a.toNat_lt
    have h₁ : a.toNat / 4 < 64 := by omega
    have h₂ : a.toNat % 4 * 16 < 64 := by omega
    obtain ⟨hbyte, -⟩ := rounds (w := a.toNat / 4) h₂ h₂ h₂
    simp only [Base64.encode, decodeFrom, decodeGroup, and_self, if_true, asc_digit junk round 0 h₁,
      asc_digit junk round 1 h₂, hbyte, List.append_nil]
    rw [Base64.byte₁_eq a (by omega)]
  | case3 a b =>
    have ha := a.toNat_lt
    have hb := b.toNat_lt
    have h₁ : a.toNat / 4 < 64 := by omega
    have h₂ : a.toNat % 4 * 16 + b.toNat / 16 < 64 := by omega
    have h₃ : b.toNat % 16 * 4 < 64 := by omega
    obtain ⟨hbyte, hbyte', -⟩ := rounds (w := a.toNat / 4) h₂ h₃ h₃
    simp only [Base64.encode, decodeFrom, decodeGroup, Base64.digit_ne h₃, false_and, if_false, if_true,
      asc_digit junk round 0 h₁, asc_digit junk round 1 h₂, asc_digit junk round 2 h₃, hbyte, hbyte', List.append_nil]
    rw [Base64.byte₁_eq a (by omega), Base64.byte₂_eq b (by omega) (by omega)]
  | case4 a b c rest ih =>
    have ha := a.toNat_lt
    have hb := b.toNat_lt
    have hc := c.toNat_lt
    have h₁ : a.toNat / 4 < 64 := by omega
    have h₂ : a.toNat % 4 * 16 + b.toNat / 16 < 64 := by omega
    have h₃ : b.toNat % 16 * 4 + c.toNat / 64 < 64 := by omega
    have h₄ : c.toNat % 64 < 64 := by omega
    obtain ⟨hbyte, hbyte', hbyte''⟩ := rounds (w := a.toNat / 4) h₂ h₃ h₄
    simp only [Base64.encode, decodeFrom, decodeGroup, Base64.digit_ne h₄, and_false, if_false,
      asc_digit junk round 0 h₁, asc_digit junk round 1 h₂, asc_digit junk round 2 h₃, asc_digit junk round 3 h₄,
      hbyte, hbyte', hbyte'', ih]
    rw [Base64.byte₁_eq a (by omega), Base64.byte₂_eq b (by omega) (by omega), Base64.byte₃_eq c (by omega)]
    rfl

theorem decodeBase64_encode (junk : Junk) (bytes : Bytes) : decodeBase64 junk (Base64.encode bytes) = bytes :=
  decodeFrom_encode junk bytes 0

theorem decodeGroup_ne_nil (junk : Junk) (round : Nat) (t₀ t₁ t₂ t₃ : Char) :
    decodeGroup junk round t₀ t₁ t₂ t₃ ≠ [] := by
  unfold decodeGroup
  split_ifs <;> exact List.cons_ne_nil _ _

/-! ## Requests -/

theorem quoted_encode (bytes : Bytes) : quoted (Base64.encode bytes) = '"' :: (Base64.encode bytes ++ ['"']) := by
  have hplain : ∀ c ∈ Base64.encode bytes, c ≠ '"' ∧ c ≠ '\\' := by
    have halphabet : (Base64.alphabet.all fun c => c != '"' && c != '\\') = true := by decide
    intro c hc
    obtain hc | rfl := Base64.mem_encode hc
    · simpa using List.all_eq_true.1 halphabet c hc
    · decide
  rw [quoted, escape_plain hplain]

/-- What the server reads in a request. -/
def requestOf (key value : Bytes) : Json :=
  .obj (.cons "key".toList (.str (Base64.encode key))
    (if value = [] then .nil else .cons "value".toList (.str (Base64.encode value)) .nil))

theorem string2json_key (junk : Junk) {key : Bytes} (hkey : Transferable key) :
    string2json junk key [] = print (requestOf key []) := by
  rw [string2json, if_neg (by simp), encodeBase64_eq junk hkey, requestOf, if_pos rfl]
  simp only [print, printMembers, quoted_encode]
  simp [quoted, escape]

theorem string2json_pair (junk : Junk) {key value : Bytes} (hkey : Transferable key) (hvalue : Transferable value)
    (hne : value ≠ []) :
    string2json junk key value = '\x7b' :: (quoted "key".toList ++ ':' :: ' ' :: (quoted (Base64.encode key) ++
      ',' :: ' ' :: (quoted "value".toList ++ ':' :: ' ' :: (quoted (Base64.encode value) ++ ['\x7d'])))) := by
  rw [string2json, if_pos hne, encodeBase64_eq junk hkey, encodeBase64_eq junk hvalue, quoted_encode, quoted_encode]
  simp [quoted, escape]

theorem parse_string2json (junk : Junk) {key value : Bytes} (hkey : Transferable key)
    (hvalue : Transferable value) : parse (string2json junk key value) = some (requestOf key value) := by
  by_cases hne : value = []
  · subst hne
    rw [string2json_key junk hkey, ← List.append_nil (print _), parse_print]
  · have hprint : ∀ bytes, print (.str (Base64.encode bytes)) = quoted (Base64.encode bytes) := fun _ => by rw [print]
    rw [string2json_pair junk hkey hvalue hne, parse]
    generalize hfuel : 2 * List.length _ = fuel
    simp only [List.length_cons, List.length_append] at hfuel
    obtain ⟨fuel, rfl⟩ : ∃ n, fuel = n + 3 := ⟨fuel - 3, by omega⟩
    have hreadKey := (reads_printed (fuel + 1)).1 (.str (Base64.encode key))
    have hreadValue := (reads_printed fuel).1 (.str (Base64.encode value))
    rw [hprint] at hreadKey hreadValue
    have hopen : quoted "key".toList = '"' :: "key\"".toList := rfl
    rw [hopen, List.cons_append, readValue_obj, ← List.cons_append, ← hopen, readMembers_quoted, readValue_space,
      hreadKey _ (by omega)]
    simp only [Option.bind_some, skip_cons (show ',' ∉ [' ', '\n', '\t', '\r'] by decide)]
    rw [readMembers_space, readMembers_quoted, readValue_space, hreadValue _ (by omega), requestOf, if_neg hne]
    rfl

theorem requestOf_key (key value : Bytes) : bytesOf ((requestOf key value).get "key".toList) = some key := by
  have hget : (requestOf key value).get "key".toList = .str (Base64.encode key) := by
    unfold requestOf
    split_ifs <;> rfl
  rw [hget, bytesOf, Base64.decode_encode]

theorem requestOf_value (key value : Bytes) : bytesOf ((requestOf key value).get "value".toList) = some value := by
  by_cases hne : value = []
  · subst hne
    rfl
  · have hget : (requestOf key value).get "value".toList = .str (Base64.encode value) := by
      rw [requestOf, if_neg hne]
      rfl
    rw [hget, bytesOf, Base64.decode_encode]

theorem requestPair_string2json (junk : Junk) {key value : Bytes} (hkey : Transferable key)
    (hvalue : Transferable value) : requestPair (string2json junk key value) = some (key, value) := by
  simp only [requestPair, parse_string2json junk hkey hvalue, requestOf_key, requestOf_value, Option.bind_eq_bind,
    Option.bind_some]

theorem etcdSet_eq (junk : Junk) (server : Server) (pairs : Pairs) {key value : Bytes} (hkey : Transferable key)
    (hvalue : Transferable value) :
    etcdSet junk server pairs (key, value) = Function.update pairs key (some value) :=
  server.put_eq pairs _ key value (requestPair_string2json junk hkey hvalue)

/-- The value of the last PUT to a key. -/
def lastPut (puts : List (Bytes × Bytes)) (key : Bytes) : Option Bytes := puts.reverse.lookup key

theorem etcdSets_eq (junk : Junk) (server : Server) {puts : List (Bytes × Bytes)}
    (hputs : ∀ p ∈ puts, Transferable p.1 ∧ Transferable p.2) (key : Bytes) :
    puts.foldl (etcdSet junk server) (fun _ => none) key = lastPut puts key := by
  induction puts using List.reverseRecOn with
  | nil => rfl
  | append_singleton puts p ih =>
    obtain ⟨hkey, hvalue⟩ := hputs p (by simp)
    have ih := ih fun q hq => hputs q (List.mem_append_left _ hq)
    obtain ⟨k, v⟩ := p
    rw [List.foldl_append, List.foldl_cons, List.foldl_nil, etcdSet_eq junk server _ hkey hvalue, Function.update_apply, ih,
      lastPut, lastPut, List.reverse_append, List.reverse_singleton, List.singleton_append, List.lookup_cons]
    by_cases h : key = k
    · simp [h]
    · rw [if_neg h, beq_eq_false_iff_ne.2 h]

/-! ## Answers -/

theorem substr_quoted (s : List Char) (c : Char) : substr (c :: (s ++ [c, '\n'])) 1 (s.length + 3 - 3) = s := by
  simp [substr]

theorem json2string_missing (junk : Junk) {answer : Members} (h : Members.get? "kvs".toList answer = none) :
    json2string junk (print (.obj answer)) = [] := by
  have hkvs : (Json.obj answer).get "kvs".toList = .null := by
    rw [Json.get, h, Option.getD_none]
  rw [json2string, ← List.append_nil (print _), parse_print]
  simp only [hkvs]
  rfl

theorem json2string_entry (junk : Junk) (extras : Extras) (entry : Json) :
    json2string junk (print (.obj (.cons "kvs".toList (.arr (.cons entry .nil)) extras.answer))) =
      decodeBase64 junk (substr (fastWrite (entry.get "value".toList)) 1
        ((fastWrite (entry.get "value".toList)).length - 3)) := by
  have hkvs : (Json.obj (.cons "kvs".toList (.arr (.cons entry .nil)) extras.answer)).get "kvs".toList =
      .arr (.cons entry .nil) := by
    rw [Json.get, Members.get?, extras.answer_kvs]
    rfl
  have hnode : substr (fastWrite (.arr (.cons entry .nil))) 1 ((fastWrite (.arr (.cons entry .nil))).length - 2) =
      print entry ++ [']'] := by
    have hlength : (print entry).length + 1 = (print entry ++ [']']).length := by simp
    have htext : print entry ++ [']', '\n'] = (print entry ++ [']']) ++ ['\n'] := by simp
    simp only [fastWrite, print, printItems, substr, List.cons_append, List.append_assoc, List.length_cons,
      List.length_append, List.drop_succ_cons, List.drop_zero, List.nil_append, List.length_nil]
    rw [htext]
    exact List.take_left' hlength.symm
  rw [json2string, ← List.append_nil (print _), parse_print]
  simp only [hkvs, hnode, parse_print]

theorem entryOf_value (extras : Extras) (key value : Bytes) :
    (entryOf extras key value).get "value".toList = if value = [] then .null else .str (Base64.encode value) := by
  unfold entryOf
  split_ifs with h
  · rw [Json.get, Members.get?, extras.entry_value]
    rfl
  · rw [Json.get, Members.get?, Members.get?, extras.entry_value]
    rfl

theorem etcdGet_eq (junk : Junk) (server : Server) (pairs : Pairs) {key : Bytes} (hkey : Transferable key) :
    etcdGet junk server pairs key =
      match pairs key with
      | none => []
      | some value => if value = [] then decodeBase64 junk ['u', 'l'] else value := by
  have hempty : Transferable [] := ⟨List.not_mem_nil, by simp⟩
  rw [etcdGet, server.range_eq pairs _ key [] (requestPair_string2json junk hkey hempty)]
  cases hpair : pairs key with
  | none => exact json2string_missing junk (server.extras pairs).answer_kvs
  | some value =>
    simp only [answerTo, json2string_entry, entryOf_value]
    split_ifs with h
    · rfl
    · have htext : fastWrite (.str (Base64.encode value)) = '"' :: (Base64.encode value ++ ['"', '\n']) := by
        rw [fastWrite, print, quoted_encode]
        simp
      have hlength : (fastWrite (.str (Base64.encode value))).length = (Base64.encode value).length + 3 := by
        rw [htext]
        simp
      rw [hlength, htext, substr_quoted, decodeBase64_encode]

/-- A GET gives the value of the last PUT exactly where that value is not empty, and nothing for a key that was
never put. -/
theorem get_after_puts_iff (junk : Junk) (server : Server) {puts : List (Bytes × Bytes)} {key : Bytes}
    (hputs : ∀ p ∈ puts, Transferable p.1 ∧ Transferable p.2) (hkey : Transferable key) :
    etcdGet junk server (puts.foldl (etcdSet junk server) fun _ => none) key = (lastPut puts key).getD [] ↔
      lastPut puts key ≠ some [] := by
  rw [etcdGet_eq junk server _ hkey, etcdSets_eq junk server hputs]
  cases hlast : lastPut puts key with
  | none => simp
  | some value =>
    by_cases h : value = []
    · simp only [h, if_true, Option.getD_some, ne_eq, not_true_eq_false, iff_false]
      exact decodeGroup_ne_nil junk 0 'u' 'l' '\x00' (junk.char 3)
    · simp [h]

def plainJunk : Junk := ⟨0, fun _ => 'x', fun _ _ => 0⟩

def noExtras : Extras := ⟨.nil, fun _ => .nil, rfl, fun _ => rfl⟩

/-- A server that refuses all requests without a pair and adds nothing to its answers. -/
def plainServer : Server where
  put pairs request :=
    match requestPair request with
    | none => pairs
    | some (key, value) => Function.update pairs key (some value)
  putAnswer _ _ := print (.obj .nil)
  range pairs request :=
    match requestPair request with
    | none => print (.obj .nil)
    | some (key, _) => print (answerTo noExtras key (pairs key))
  extras _ := noExtras
  put_eq pairs request key value h := by rw [h]
  range_eq pairs request key value h := by rw [h]

/-- `k` is put to `v` and then to `w`. -/
theorem second_value_read :
    etcdGet plainJunk plainServer ([([107], [118]), ([107], [119])].foldl (etcdSet plainJunk plainServer) fun _ => none)
      [107] = [119] := by
  have htransfer : ∀ b : UInt8, b ≠ 0 → Transferable [b] := fun b hb => ⟨by simpa using Ne.symm hb, by simp⟩
  refine (get_after_puts_iff plainJunk plainServer (fun p hp => ?_) (htransfer 107 (by decide))).2 (by decide)
  simp only [List.mem_cons, List.not_mem_nil, or_false] at hp
  obtain rfl | rfl := hp
  · exact ⟨htransfer 107 (by decide), htransfer 118 (by decide)⟩
  · exact ⟨htransfer 107 (by decide), htransfer 119 (by decide)⟩

/-- `k` is put to the empty value: the missing member is printed as `null`, and its two inner letters are decoded,
whatever else the server answers. -/
theorem empty_value_not_read : (Transferable [107] ∧ Transferable []) ∧ ∀ server : Server,
    etcdGet plainJunk server (etcdSet plainJunk server (fun _ => none) ([107], [])) [107] = [186, 80, 49] := by
  have hkey : Transferable [107] := ⟨by decide, by decide⟩
  have hvalue : Transferable [] := ⟨List.not_mem_nil, by decide⟩
  refine ⟨⟨hkey, hvalue⟩, fun server => ?_⟩
  rw [etcdGet_eq plainJunk server _ hkey, etcdSet_eq plainJunk server _ hkey hvalue, Function.update_self]
  decide +kernel

end EasyDDB.Etcd
