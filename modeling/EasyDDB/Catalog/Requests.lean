import EasyDDB.Catalog.LineBreaks
import EasyDDB.Lib.Loops
import Mathlib.Data.List.TakeWhile

/-! # The buffers of `etcd_opt`

`etcd_opt` copies a request to an array of 1024 bytes and collects the answer, as it comes in pieces, in one of 5000.
A text of more than 54 bytes is encoded with line breaks. With a server that refuses a request whose texts are not Base64,
such a request has no effect. -/
namespace EasyDDB.Etcd
open Json
set_option autoImplicit false

/-! ## Requests with line breaks -/

section
variable {bytes key value : Bytes} {junk : Junk}

theorem encodeBase64_eq_lines (junk : Junk) (hnul : 0 ∉ bytes) : encodeBase64 junk bytes = encodeLines 0 bytes :=
  encodeFrom_eq_lines junk hnul 0

theorem mem_encodeLines {lineLength : Nat} {c : Char} (hc : c ∈ encodeLines lineLength bytes) :
    c ∈ Base64.alphabet ∨ c = '=' ∨ c = '\r' ∨ c = '\n' := by
  by_cases hbreak : notBreak c = true
  · have hfilter : (encodeLines lineLength bytes).filter notBreak = Base64.encode bytes := encodeLines_filter
    have hmem : c ∈ Base64.encode bytes := hfilter ▸ List.mem_filter.mpr ⟨hc, hbreak⟩
    obtain h | h := Base64.mem_encode hmem
    · exact .inl h
    · exact .inr (.inl h)
  · simp only [notBreak, decide_eq_true_eq, not_and_or, not_not] at hbreak
    exact .inr (.inr hbreak)

theorem quoted_encodeLines (bytes : Bytes) :
    quoted (encodeLines 0 bytes) = '"' :: (encodeLines 0 bytes ++ ['"']) := by
  have halphabet : (Base64.alphabet.all fun c => c != '"' && c != '\\') = true := by decide
  have hplain : ∀ c ∈ encodeLines 0 bytes, c ≠ '"' ∧ c ≠ '\\' := by
    intro c hc
    obtain h | rfl | rfl | rfl := mem_encodeLines hc
    · simpa using List.all_eq_true.mp halphabet c h
    all_goals decide
  rw [quoted, escape_plain hplain]

/-- The text of a request is read as it is, with the breaks in its strings. -/
theorem parse_string2json_lines (junk : Junk) (hkey : 0 ∉ key) (hvalue : 0 ∉ value) :
    parse (string2json junk key value) = some (.obj (.cons "key".toList (.str (encodeLines 0 key))
      (if value = [] then .nil else .cons "value".toList (.str (encodeLines 0 value)) .nil))) := by
  have hprint : ∀ bytes, print (.str (encodeLines 0 bytes)) = quoted (encodeLines 0 bytes) := fun _ => by rw [print]
  by_cases hne : value = []
  · subst hne
    have htext : string2json junk key [] = print (.obj (.cons "key".toList (.str (encodeLines 0 key)) .nil)) := by
      rw [string2json, if_neg (by simp), encodeBase64_eq_lines junk hkey]
      simp only [print, printMembers, quoted_encodeLines]
      simp [quoted, escape]
    rw [htext, ← List.append_nil (print _), parse_print, if_pos rfl]
  · have htext : string2json junk key value = '\x7b' :: (quoted "key".toList ++ ':' :: ' ' :: (quoted (encodeLines 0 key) ++
        ',' :: ' ' :: (quoted "value".toList ++ ':' :: ' ' :: (quoted (encodeLines 0 value) ++ ['\x7d'])))) := by
      rw [string2json, if_pos hne, encodeBase64_eq_lines junk hkey, encodeBase64_eq_lines junk hvalue, quoted_encodeLines,
        quoted_encodeLines]
      simp [quoted, escape]
    rw [htext, parse]
    generalize hfuel : 2 * List.length _ = fuel
    simp only [List.length_cons, List.length_append] at hfuel
    obtain ⟨fuel, rfl⟩ : ∃ n, fuel = n + 3 := ⟨fuel - 3, by omega⟩
    have hreadKey := (reads_printed (fuel + 1)).1 (.str (encodeLines 0 key))
    have hreadValue := (reads_printed fuel).1 (.str (encodeLines 0 value))
    rw [hprint] at hreadKey hreadValue
    have hopen : quoted "key".toList = '"' :: "key\"".toList := rfl
    rw [hopen, List.cons_append, readValue_obj, ← List.cons_append, ← hopen, readMembers_quoted, readValue_space,
      hreadKey _ (by omega)]
    simp only [Option.bind_some, skip_cons (show ',' ∉ [' ', '\n', '\t', '\r'] by decide)]
    rw [readMembers_space, readMembers_quoted, readValue_space, hreadValue _ (by omega), if_neg hne]
    rfl

/-- The server accepts what fits one line. -/
theorem bytesOf_encodeLines (bytes : Bytes) :
    bytesOf (.str (encodeLines 0 bytes)) = if bytes.length ≤ 54 then some bytes else none := by
  rw [bytesOf]
  split
  · next hshort => rw [encodeLines_short (by omega), Base64.decode_encode]
  · next hlong =>
    rw [Option.eq_none_iff_forall_ne_some]
    intro decoded hdecode
    have hne : bytes ≠ [] := by
      rintro rfl
      exact hlong (by simp)
    have hinfix : ['\r', '\n'] <:+: encodeLines 0 bytes := break_infix hne (by omega)
    have hbreak : '\r' ∈ encodeLines 0 bytes := hinfix.subset (by simp)
    exact absurd (Base64.mem_of_decode hdecode hbreak) (by decide)

/-- A pair is read from the request exactly if its key and its value fit one line each. -/
theorem requestPair_lines (junk : Junk) (hkey : 0 ∉ key) (hvalue : 0 ∉ value) :
    requestPair (string2json junk key value) =
      if key.length ≤ 54 ∧ value.length ≤ 54 then some (key, value) else none := by
  have hgetKey : ∀ rest, Members.get? "key".toList rest = none →
      (Json.obj (.cons "key".toList (.str (encodeLines 0 key)) rest)).get "key".toList = .str (encodeLines 0 key) := by
    intro rest hrest
    rw [Json.get, Members.get?, hrest]
    rfl
  have hgetValue : bytesOf ((Json.obj (.cons "key".toList (.str (encodeLines 0 key))
      (if value = [] then .nil else .cons "value".toList (.str (encodeLines 0 value)) .nil))).get "value".toList) =
        if value.length ≤ 54 then some value else none := by
    by_cases hne : value = []
    · subst hne
      rfl
    · rw [if_neg hne, ← bytesOf_encodeLines]
      rfl
  simp only [requestPair, parse_string2json_lines junk hkey hvalue, Option.bind_eq_bind, Option.bind_some]
  rw [hgetKey _ (by split <;> rfl), bytesOf_encodeLines, hgetValue]
  by_cases hk : key.length ≤ 54
  · by_cases hv : value.length ≤ 54
    · rw [if_pos hk, if_pos hv, if_pos ⟨hk, hv⟩, Option.bind_some, Option.bind_some]
    · have hnot : ¬ (key.length ≤ 54 ∧ value.length ≤ 54) := fun h => hv h.2
      rw [if_pos hk, if_neg hv, if_neg hnot, Option.bind_some, Option.bind_none]
  · have hnot : ¬ (key.length ≤ 54 ∧ value.length ≤ 54) := fun h => hk h.1
    rw [if_neg hk, if_neg hnot, Option.bind_none]

end

/-! ## The arrays -/

/-- How the answers arrive: in pieces of any sizes. -/
structure Transport where
  chunks : List Char → List (List Char)
  flatten_chunks : ∀ answer, (chunks answer).flatten = answer

/-- `write_data`: `strncat` appends the piece up to a zero byte. The result is `none` where it writes behind the end of
`result`. -/
def writeData (result buffer : List Char) : Option (List Char) :=
  let result := result ++ buffer.takeWhile (· ≠ '\x00')
  if result.length < 5000 then some result else none

/-- What `curl_easy_perform` leaves in `result`. -/
def receive (transport : Transport) (answer : List Char) : Option (List Char) :=
  (transport.chunks answer).foldlM writeData []

/-- `etcd_opt` with the server: the pairs it holds afterwards, and the answer. The result is `none` where `strcpy` writes
behind the end of `szJsonData`. -/
def etcdOpt (transport : Transport) (server : Server) (pairs : Pairs) (data : List Char) (op : String) :
    Option (Pairs × List Char) :=
  if op = "PUT" then
    if data.length < 1024 then
      (receive transport (server.putAnswer pairs data)).map fun answer => (server.put pairs data, answer)
    else none
  else if op = "GET" then
    if data.length < 1024 then
      (receive transport (server.range pairs data)).map fun answer => (pairs, answer)
    else none
  else some (pairs, [])

/-- `etcd_opt(string2json(key, value), "PUT")` -/
def putThrough (transport : Transport) (server : Server) (junk : Junk) (pairs : Pairs) (put : Bytes × Bytes) :
    Option Pairs :=
  (etcdOpt transport server pairs (string2json junk put.1 put.2) "PUT").map Prod.fst

/-- `json2string(etcd_opt(string2json(key, ""), "GET"))` -/
def getThrough (transport : Transport) (server : Server) (junk : Junk) (pairs : Pairs) (key : Bytes) : Option Bytes :=
  (etcdOpt transport server pairs (string2json junk key []) "GET").map fun r => json2string junk r.2

/-- The answer arrives whole if it fits `result`, however it is cut. -/
theorem receive_eq (transport : Transport) {answer : List Char} (hnul : '\x00' ∉ answer) (hfit : answer.length < 5000) :
    receive transport answer = some answer := by
  obtain ⟨result, hrun, hresult⟩ : ∃ result, (transport.chunks answer).foldlM writeData [] = some result ∧
      result = (transport.chunks answer).flatten := by
    refine Loops.progress_seen (I := fun pre result => result = pre.flatten) ?_ rfl
    rintro pre buffer post hchunks result rfl
    have hflat : answer = pre.flatten ++ buffer ++ post.flatten := by
      rw [← transport.flatten_chunks answer, hchunks]
      simp
    have hclean : buffer.takeWhile (· ≠ '\x00') = buffer := by
      rw [List.takeWhile_eq_self_iff]
      intro c hc
      refine decide_eq_true fun hzero => hnul ?_
      rw [hflat, ← hzero]
      simp [hc]
    have hlength := congrArg List.length hflat
    simp only [List.length_append] at hlength
    refine ⟨pre.flatten ++ buffer, ?_, by simp⟩
    rw [writeData, hclean]
    exact if_pos (by rw [List.length_append]; omega)
  rw [receive, hrun, hresult, transport.flatten_chunks]

/-- The number of characters `EncodeBase64` makes of `n` bytes. -/
def encodedLength (n : Nat) : Nat := 4 * ((n + 2) / 3) + 2 * ((n + 2) / 3 - 18)

/-- The length of a request for a key and a value of these lengths. -/
def requestLength (key value : Nat) : Nat :=
  if value = 0 then encodedLength key + 10 else encodedLength key + encodedLength value + 24

theorem length_string2json (junk : Junk) {key value : Bytes} (hkey : 0 ∉ key) (hvalue : 0 ∉ value) :
    (string2json junk key value).length = requestLength key.length value.length := by
  have hlength : ∀ bytes : Bytes, (encodeLines 0 bytes).length = encodedLength bytes.length :=
    fun bytes => length_encodeLines
  rw [string2json, encodeBase64_eq_lines junk hkey, encodeBase64_eq_lines junk hvalue, requestLength]
  by_cases hne : value = []
  · subst hne
    simp [hlength]
  · have hpos : value.length ≠ 0 := by simpa using hne
    simp only [if_pos hne, if_neg hpos, List.length_append, hlength]
    simp
    omega

/-! ## The texts of answers -/

/-- A text of at most `n` characters without a zero byte. -/
def Clean (n : Nat) (text : List Char) : Prop := '\x00' ∉ text ∧ text.length ≤ n

instance (n : Nat) (text : List Char) : Decidable (Clean n text) := inferInstanceAs (Decidable (_ ∧ _))

theorem Clean.members {a b c : Nat} {name : List Char} {v : Json} {rest : Members} (hname : Clean a (quoted name))
    (hv : Clean b (print v)) (hrest : Clean c (printMembers rest)) :
    Clean (a + b + c + 2) (printMembers (.cons name v rest)) := by
  constructor
  · intro hmem
    obtain h | h | h | h | h := mem_printMembers_cons hmem
    · exact hname.1 h
    · exact hv.1 h
    · exact hrest.1 h
    · exact absurd h (by decide)
    · exact absurd h (by decide)
  · have hlength := length_printMembers_cons name v rest
    have := hname.2
    have := hv.2
    have := hrest.2
    omega

theorem Clean.obj {n : Nat} {members : Members} (h : Clean n (printMembers members)) :
    Clean (n + 2) (print (.obj members)) := by
  obtain ⟨hnul, hlength⟩ := h
  rw [print]
  constructor
  · simp [hnul]
  · simp only [List.length_cons, List.length_append, List.length_nil]
    omega

theorem Clean.singleton {n : Nat} {v : Json} (h : Clean n (print v)) : Clean (n + 2) (print (.arr (.cons v .nil))) := by
  obtain ⟨hnul, hlength⟩ := h
  rw [print, printItems]
  constructor
  · simp [hnul]
  · simp only [List.length_cons, List.length_append, List.length_nil]
    omega

theorem clean_encode {bytes : Bytes} (h : bytes.length ≤ 54) : Clean 74 (print (.str (Base64.encode bytes))) := by
  have hshort : encodeLines 0 bytes = Base64.encode bytes := encodeLines_short (by omega)
  have hlength : (encodeLines 0 bytes).length = _ := length_encodeLines
  rw [print, quoted_encode]
  constructor
  · intro hmem
    simp only [List.mem_cons, List.mem_append, List.not_mem_nil, or_false] at hmem
    obtain h | h | h := hmem
    · exact absurd h (by decide)
    · exact absurd (Base64.mem_encode h) (by decide)
    · exact absurd h (by decide)
  · rw [← hshort, List.length_cons, List.length_append, hlength, List.length_singleton]
    omega

/-- The server refuses a request from which no pair is read, such as one with line breaks in its texts: a PUT changes
nothing, and the answer to a GET has no entry. -/
structure Server.Strict (server : Server) : Prop where
  put : ∀ pairs request, requestPair request = none → server.put pairs request = pairs
  range : ∀ pairs request, requestPair request = none →
    ∃ answer, Members.get? "kvs".toList answer = none ∧ server.range pairs request = print (.obj answer)

/-- Answers without an entry fit `result` and have no zero byte, and what the server adds to an entry leaves room for
it. -/
structure Server.ShortAnswers (server : Server) : Prop where
  put : ∀ pairs request, Clean 4999 (server.putAnswer pairs request)
  refused : ∀ pairs request, requestPair request = none → Clean 4999 (server.range pairs request)
  answer : ∀ pairs, Clean 2000 (printMembers (server.extras pairs).answer)
  entry : ∀ pairs key, Clean 2000 (printMembers ((server.extras pairs).entry key))

/-- Only keys and values that fit one line are stored. -/
def OneLined (pairs : Pairs) : Prop := ∀ k v, pairs k = some v → k.length ≤ 54 ∧ v.length ≤ 54

section
variable {server : Server} {pairs : Pairs} {key : Bytes} (hanswers : server.ShortAnswers)
include hanswers

theorem clean_entry (pairs : Pairs) {value : Bytes} (hkey : key.length ≤ 54) (hvalue : value.length ≤ 54) :
    Clean 2200 (print (entryOf (server.extras pairs) key value)) := by
  have hkeyName : Clean 5 (quoted "key".toList) := by decide
  have hvalueName : Clean 7 (quoted "value".toList) := by decide
  have hadded := hanswers.entry pairs key
  have hmembers : Clean 2083 (printMembers (if value = [] then (server.extras pairs).entry key else
      .cons "value".toList (.str (Base64.encode value)) ((server.extras pairs).entry key))) := by
    split
    · exact ⟨hadded.1, hadded.2.trans (by decide)⟩
    · exact hvalueName.members (clean_encode hvalue) hadded
  have hentry : Clean 2166 (print (entryOf (server.extras pairs) key value)) :=
    (hkeyName.members (clean_encode hkey) hmembers).obj
  exact ⟨hentry.1, hentry.2.trans (by decide)⟩

/-- The answer to a GET fits `result` if only short values are stored. -/
theorem clean_range (hstored : OneLined pairs) (request : List Char) : Clean 4999 (server.range pairs request) := by
  have hkvs : Clean 5 (quoted "kvs".toList) := by decide
  cases hrequest : requestPair request with
  | none => exact hanswers.refused pairs request hrequest
  | some pair =>
    obtain ⟨k, v⟩ := pair
    rw [server.range_eq pairs request k v hrequest]
    cases hpair : pairs k with
    | none =>
      have hobj : Clean 2002 (print (.obj (server.extras pairs).answer)) := (hanswers.answer pairs).obj
      exact ⟨hobj.1, hobj.2.trans (by decide)⟩
    | some value =>
      obtain ⟨hk, hv⟩ := hstored k value hpair
      have hanswer := (hkvs.members (clean_entry hanswers pairs hk hv).singleton (hanswers.answer pairs)).obj
      exact ⟨hanswer.1, hanswer.2.trans (by decide)⟩

end

/-! ## Calls -/

/-- The key and the value of a PUT fit one line each. -/
def oneLine (put : Bytes × Bytes) : Bool := put.1.length ≤ 54 ∧ put.2.length ≤ 54

section
variable {transport : Transport} {server : Server} {junk : Junk} {pairs : Pairs} {puts : List (Bytes × Bytes)}
  {key : Bytes}

/-- A PUT takes effect exactly if its key and its value fit one line each. -/
theorem etcdSet_any (hstrict : server.Strict) (junk : Junk) (pairs : Pairs) {key value : Bytes} (hkey : 0 ∉ key)
    (hvalue : 0 ∉ value) :
    etcdSet junk server pairs (key, value) =
      if key.length ≤ 54 ∧ value.length ≤ 54 then Function.update pairs key (some value) else pairs := by
  have hpair := requestPair_lines junk hkey hvalue
  split
  · next hline => exact server.put_eq pairs _ key value (hpair.trans (if_pos hline))
  · next hline => exact hstrict.put pairs _ (hpair.trans (if_neg hline))

/-- Requests that have no effect can be left out. -/
theorem etcdSets_filter (hstrict : server.Strict) (hputs : ∀ p ∈ puts, 0 ∉ p.1 ∧ 0 ∉ p.2) (pairs : Pairs) :
    puts.foldl (etcdSet junk server) pairs = (puts.filter oneLine).foldl (etcdSet junk server) pairs := by
  rw [List.foldl_filter]
  refine List.foldl_ext _ _ _ fun pairs p hp => ?_
  obtain ⟨hkey, hvalue⟩ := hputs p hp
  split
  · rfl
  · next hline => rw [etcdSet_any hstrict junk pairs hkey hvalue, if_neg (by simpa [oneLine] using hline)]

/-- What the server holds behind some requests: the last values that fitted one line. -/
theorem etcdSets_any (hstrict : server.Strict) (hputs : ∀ p ∈ puts, 0 ∉ p.1 ∧ 0 ∉ p.2) (key : Bytes) :
    puts.foldl (etcdSet junk server) (fun _ => none) key = lastPut (puts.filter oneLine) key := by
  rw [etcdSets_filter hstrict hputs]
  refine etcdSets_eq junk server (fun p hp => ?_) key
  obtain ⟨hmem, hline⟩ := List.mem_filter.mp hp
  rw [oneLine, decide_eq_true_eq] at hline
  exact ⟨⟨(hputs p hmem).1, hline.1⟩, (hputs p hmem).2, hline.2⟩

theorem lastPut_mem {value : Bytes} (h : lastPut puts key = some value) : (key, value) ∈ puts := by
  obtain ⟨l₁, l₂, hsplit, -⟩ := List.lookup_eq_some_iff.mp h
  rw [← List.mem_reverse, hsplit]
  simp

theorem putThrough_eq (hanswers : server.ShortAnswers) {put : Bytes × Bytes} (hkey : 0 ∉ put.1) (hvalue : 0 ∉ put.2) :
    putThrough transport server junk pairs put =
      if requestLength put.1.length put.2.length < 1024 then some (etcdSet junk server pairs put) else none := by
  have hanswer := hanswers.put pairs (string2json junk put.1 put.2)
  rw [putThrough, etcdOpt, if_pos rfl, length_string2json junk hkey hvalue,
    receive_eq transport hanswer.1 (Nat.lt_succ_of_le hanswer.2)]
  split <;> rfl

/-- A GET for a long key finds nothing, as nothing is stored under it. -/
theorem etcdGet_any (hstrict : server.Strict) (hkey : 0 ∉ key) (hstored : OneLined pairs) :
    etcdGet junk server pairs key =
      match pairs key with
      | none => []
      | some value => if value = [] then decodeBase64 junk ['u', 'l'] else value := by
  by_cases hshort : key.length ≤ 54
  · exact etcdGet_eq junk server pairs ⟨hkey, hshort⟩
  · have hnone : pairs key = none := by
      rw [Option.eq_none_iff_forall_ne_some]
      exact fun value hvalue => hshort (hstored key value hvalue).1
    have hpair : requestPair (string2json junk key []) = none := by
      rw [requestPair_lines junk hkey List.not_mem_nil, if_neg fun h => hshort h.1]
    obtain ⟨answer, hkvs, hanswer⟩ := hstrict.range pairs _ hpair
    rw [hnone, etcdGet, hanswer]
    exact json2string_missing junk hkvs

end

/-- A GET stays within the arrays if its request does. -/
theorem getThrough_eq (transport : Transport) {server : Server} (junk : Junk) {pairs : Pairs} {key : Bytes}
    (hstrict : server.Strict) (hanswers : server.ShortAnswers) (hkey : 0 ∉ key) (hstored : OneLined pairs) :
    getThrough transport server junk pairs key =
      if requestLength key.length 0 < 1024 then
        some (match pairs key with
          | none => []
          | some value => if value = [] then decodeBase64 junk ['u', 'l'] else value)
      else none := by
  have hanswer := clean_range hanswers hstored (string2json junk key [])
  have hlt : (server.range pairs (string2json junk key [])).length < 5000 := Nat.lt_succ_of_le hanswer.2
  have hread : json2string junk (server.range pairs (string2json junk key [])) = _ :=
    etcdGet_any hstrict hkey hstored
  have hop : ("GET" : String) ≠ "PUT" := by decide
  rw [getThrough, etcdOpt, if_neg hop, if_pos rfl, length_string2json junk hkey List.not_mem_nil,
    receive_eq transport hanswer.1 hlt, List.length_nil]
  split
  · rw [Option.map_some, Option.map_some, hread]
  · rw [Option.map_none]

/-- PUTs with short requests have the effect they have without the arrays. -/
theorem puts_run (transport : Transport) {server : Server} (junk : Junk) {puts : List (Bytes × Bytes)}
    (hanswers : server.ShortAnswers) (hputs : ∀ p ∈ puts, 0 ∉ p.1 ∧ 0 ∉ p.2)
    (hshort : ∀ p ∈ puts, requestLength p.1.length p.2.length < 1024) (pairs : Pairs) :
    puts.foldlM (putThrough transport server junk) pairs = some (puts.foldl (etcdSet junk server) pairs) := by
  obtain ⟨pairs', hrun, rfl⟩ : ∃ pairs', puts.foldlM (putThrough transport server junk) pairs = some pairs' ∧
      pairs' = puts.foldl (etcdSet junk server) pairs := by
    refine Loops.follows (R := Eq) ?_ rfl
    rintro p hp pairs _ rfl
    exact ⟨_, by rw [putThrough_eq hanswers (hputs p hp).1 (hputs p hp).2, if_pos (hshort p hp)], rfl⟩
  exact hrun

/-- A PUT whose request is too long is not survived. -/
theorem puts_stuck (transport : Transport) {server : Server} (junk : Junk) {puts : List (Bytes × Bytes)}
    (hanswers : server.ShortAnswers) (hputs : ∀ p ∈ puts, 0 ∉ p.1 ∧ 0 ∉ p.2) {pairs pairs' : Pairs}
    (h : puts.foldlM (putThrough transport server junk) pairs = some pairs') :
    ∀ p ∈ puts, requestLength p.1.length p.2.length < 1024 := by
  intro p hp
  by_contra hlong
  have hnone : ∀ pairs, putThrough transport server junk pairs p = none := by
    intro pairs
    rw [putThrough_eq hanswers (hputs p hp).1 (hputs p hp).2, if_neg hlong]
  rw [Loops.stuck hp hnone] at h
  cases h

/-- The answers arrive byte by byte. -/
def byteWise : Transport := ⟨fun answer => answer.map fun c => [c], fun answer => by simp [← List.flatMap_def]⟩

theorem plainServer_strict : plainServer.Strict where
  put pairs request h := by simp only [plainServer, h]
  range pairs request h := ⟨.nil, rfl, by simp only [plainServer, h]⟩

theorem plainServer_shortAnswers : plainServer.ShortAnswers where
  put _ _ := show Clean 4999 (print (.obj .nil)) by decide
  refused pairs request h := by
    simp only [plainServer, h]
    decide
  answer _ := show Clean 2000 (printMembers .nil) by decide
  entry _ _ := show Clean 2000 (printMembers .nil) by decide

end EasyDDB.Etcd
