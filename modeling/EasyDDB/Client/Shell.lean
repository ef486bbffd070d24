import EasyDDB.Execution.Process
import Mathlib.Data.List.TakeWhile

/-! # The client

`Shell::run` of `cli.cpp` with the commands `main` of `client.cpp` registers, and the answer `deal_with_msg` of the
server gives to a request. The input is the list of what `readline` returns, `none` for the null pointer at its end. -/
namespace EasyDDB.Client
open Execution
set_option autoImplicit false

/-! ## One turn of the loop -/

inductive Prompt where
  | sql | conf
deriving DecidableEq, Repr

/-- The commands of `shell_cmd`. -/
inductive ShellCmd where
  | conf | sql | exit
deriving DecidableEq, Repr

def shellCmd (line : Text) : Option ShellCmd :=
  if line = "conf".toList then some .conf
  else if line = "sql".toList then some .sql
  else if line = "exit".toList then some .exit
  else none

/-- The names of `conf_cmd`. -/
def confCmd : List Text := ["partition".toList]

structure Request where
  msgType : Text
  msg : Text
  logId : Nat
deriving DecidableEq, Repr

/-- The prompt and the `log_id` of the client, with what it has sent and reported so far. -/
structure Shell where
  prompt : Prompt
  logId : Nat
  exited : Bool
  sent : List Request
  notFound : List Text
deriving DecidableEq, Repr

/-- The client before its first line. -/
def Shell.start : Shell := ⟨.sql, 0, false, [], []⟩

/-- `parse_input`: the blanks before the text are erased, and at the end of the input the line is empty. -/
def parseInput : Option Text → Text
  | none => []
  | some lineRead => lineRead.dropWhile (· = ' ')

/-- `parse_cmd_name` -/
def parseCmdName (line : Text) : Text := line.takeWhile (· ≠ ' ')

/-- `send_request` with `++log_id` -/
def Shell.sendRequest (sh : Shell) (msgType msg : Text) : Shell :=
  { sh with logId := sh.logId + 1, sent := sh.sent ++ [⟨msgType, msg, sh.logId + 1⟩] }

def Shell.execute (sh : Shell) : ShellCmd → Shell
  | .conf => { sh with prompt := .conf }
  | .sql => { sh with prompt := .sql }
  | .exit => { sh with exited := true }

/-- One turn of the loop of `Shell::run`. A client that has called `exit` reads no more. -/
def Shell.turn (sh : Shell) (lineRead : Option Text) : Shell :=
  if sh.exited then sh
  else
    let line := parseInput lineRead
    if line = [] then sh
    else
      match shellCmd line with
      | some cmd => sh.execute cmd
      | none =>
        match sh.prompt with
        | .sql => sh.sendRequest "sql".toList line
        | .conf =>
          if parseCmdName line ∈ confCmd then sh.sendRequest "conf".toList line
          else { sh with notFound := sh.notFound ++ [line] }

/-- `Shell::run` on the lines of an input. -/
def run (input : List (Option Text)) : Shell := input.foldl Shell.turn .start

/-! ## The server -/

/-- The functions `deal_with_msg` chooses from. -/
structure Handlers (α : Type) where
  sqlExecute : Text → α
  config : Text → α
  siteExecute : Text → α
  dataReceive : Text → α
  sitePlanExecute : Text → α
  /-- The answer that is given without calling a function. -/
  answer : Text → α

/-- `deal_with_msg` -/
def dealWithMsg {α : Type} (h : Handlers α) (msgType msg : Text) : α :=
  if msgType = "sql".toList then h.sqlExecute msg
  else if msgType = "config".toList then h.config msg
  else if msgType = "order".toList then h.siteExecute msg
  else if msgType = "data_push".toList then h.dataReceive msg
  else if msgType = "site_execute".toList then h.sitePlanExecute msg
  else h.answer "error".toList

/-! ## What a session asks for -/

/-- The lines of an input up to the first `exit`. -/
def lines (input : List (Option Text)) : List Text :=
  (input.map parseInput).takeWhile (shellCmd · ≠ some .exit)

/-- The prompt a line switches to. -/
def switch (line : Text) : Option Prompt :=
  match shellCmd line with
  | some .conf => some .conf
  | some .sql => some .sql
  | _ => none

/-- The prompt behind some lines: that of the last switch. -/
def promptBehind (before : List Text) : Prompt := (before.reverse.findSome? switch).getD .sql

/-- The request for a line behind the lines `before`. -/
def request? (before : List Text) (line : Text) : Option (Text × Text) :=
  if line = [] ∨ (shellCmd line).isSome then none
  else
    match promptBehind before with
    | .sql => some ("sql".toList, line)
    | .conf => if parseCmdName line ∈ confCmd then some ("conf".toList, line) else none

/-- A line that is reported as not found, behind the lines `before`. -/
def unknown? (before : List Text) (line : Text) : Option Text :=
  if line ≠ [] ∧ shellCmd line = none ∧ promptBehind before = .conf ∧ parseCmdName line ∉ confCmd then some line else none

/-- What the lines yield one after the other, each behind those before it. -/
def yields {β : Type} (f : List Text → Text → Option β) (ls : List Text) : List β :=
  (List.range ls.length).filterMap fun i => (ls[i]?).bind (f (ls.take i))

/-- The requests with numbers from 1 on. -/
def numbered (reqs : List (Text × Text)) : List Request := reqs.zipIdx.map fun x => ⟨x.1.1, x.1.2, x.2 + 1⟩

theorem numbered_concat (reqs : List (Text × Text)) (r : Text × Text) :
    numbered (reqs ++ [r]) = numbered reqs ++ [⟨r.1, r.2, reqs.length + 1⟩] := by
  simp [numbered, List.zipIdx_append]

theorem yields_concat {β : Type} (f : List Text → Text → Option β) (ls : List Text) (line : Text) :
    yields f (ls ++ [line]) = yields f ls ++ (f ls line).toList := by
  rw [yields, List.length_append, List.length_singleton, List.range_succ, List.filterMap_append]
  congr 1
  · refine List.filterMap_congr fun i hi => ?_
    have hlt : i < ls.length := List.mem_range.mp hi
    rw [List.getElem?_append_left hlt, List.take_append_of_le_length hlt.le]
  · rw [List.filterMap_cons, List.getElem?_concat_length, Option.bind_some, List.take_left' rfl]
    cases f ls line <;> rfl

theorem promptBehind_concat (before : List Text) (line : Text) :
    promptBehind (before ++ [line]) = (switch line).getD (promptBehind before) := by
  rw [promptBehind, List.reverse_concat, List.findSome?_cons]
  cases switch line <;> rfl

/-- Some line of the input ends the client. -/
def Ends (input : List (Option Text)) : Prop := ∃ l ∈ input, shellCmd (parseInput l) = some .exit

theorem lines_of_not_ends {input : List (Option Text)} (h : ¬ Ends input) : lines input = input.map parseInput := by
  rw [lines, List.takeWhile_eq_self_iff]
  intro line hline
  obtain ⟨l, hl, rfl⟩ := List.mem_map.mp hline
  exact decide_eq_true fun hexit => h ⟨l, hl, hexit⟩

theorem lines_concat_of_ends {input : List (Option Text)} (h : Ends input) (lineRead : Option Text) :
    lines (input ++ [lineRead]) = lines input := by
  rw [lines, List.map_append, List.takeWhile_append, if_neg, lines]
  intro hlen
  obtain ⟨l, hl, hexit⟩ := h
  have hall := List.takeWhile_eq_self_iff.mp ((List.takeWhile_prefix _).eq_of_length hlen)
  exact of_decide_eq_true (hall _ (List.mem_map_of_mem hl)) hexit

theorem lines_concat {input : List (Option Text)} (h : ¬ Ends input) (lineRead : Option Text) :
    lines (input ++ [lineRead]) =
      if shellCmd (parseInput lineRead) = some .exit then lines input else lines input ++ [parseInput lineRead] := by
  rw [lines_of_not_ends h]
  split
  · next hexit =>
    rw [lines, List.map_append, List.takeWhile_append_of_pos, List.map_singleton, List.takeWhile_cons]
    · simp [hexit]
    · intro line hline
      obtain ⟨l, hl, rfl⟩ := List.mem_map.mp hline
      exact decide_eq_true fun hx => h ⟨l, hl, hx⟩
  · next hexit =>
    rw [lines_of_not_ends, List.map_append, List.map_singleton]
    rintro ⟨l, hl, hx⟩
    obtain hl | hl := List.mem_append.mp hl
    · exact h ⟨l, hl, hx⟩
    · exact hexit (List.mem_singleton.mp hl ▸ hx)

/-! ## A session -/

/-- The client has done what the lines so far ask for. -/
structure Follows (sh : Shell) (input : List (Option Text)) : Prop where
  exited : sh.exited = true ↔ Ends input
  prompt : sh.prompt = promptBehind (lines input)
  logId : sh.logId = (yields request? (lines input)).length
  sent : sh.sent = numbered (yields request? (lines input))
  notFound : sh.notFound = yields unknown? (lines input)

theorem ends_concat {input : List (Option Text)} {lineRead : Option Text} :
    Ends (input ++ [lineRead]) ↔ Ends input ∨ shellCmd (parseInput lineRead) = some .exit := by
  simp [Ends, or_and_right, exists_or]

/-- One turn on a line that does not end the client. -/
theorem Shell.turn_eq {sh : Shell} {before : List Text} {lineRead : Option Text} (hlive : sh.exited = false)
    (hprompt : sh.prompt = promptBehind before) (hexit : shellCmd (parseInput lineRead) ≠ some .exit) :
    (sh.turn lineRead).exited = false ∧
      (sh.turn lineRead).prompt = promptBehind (before ++ [parseInput lineRead]) ∧
      (sh.turn lineRead).logId = sh.logId + (request? before (parseInput lineRead)).toList.length ∧
      (sh.turn lineRead).sent = sh.sent ++
        (request? before (parseInput lineRead)).toList.map (fun r => ⟨r.1, r.2, sh.logId + 1⟩) ∧
      (sh.turn lineRead).notFound = sh.notFound ++ (unknown? before (parseInput lineRead)).toList := by
  obtain ⟨line, hline⟩ : ∃ line, parseInput lineRead = line := ⟨_, rfl⟩
  rw [hline] at hexit ⊢
  rw [promptBehind_concat, ← hprompt, Shell.turn, if_neg (by simp [hlive]), hline]
  dsimp only
  by_cases hnil : line = []
  · subst hnil
    simp [request?, unknown?, switch, shellCmd, hlive]
  rw [if_neg hnil]
  cases hcmd : shellCmd line with
  | some cmd =>
    cases cmd with
    | conf => simp [request?, unknown?, switch, hcmd, hlive, Shell.execute]
    | sql => simp [request?, unknown?, switch, hcmd, hlive, Shell.execute]
    | exit => exact absurd hcmd hexit
  | none =>
    cases hp : sh.prompt with
    | sql => simp [request?, unknown?, switch, hcmd, hlive, Shell.sendRequest, hnil, ← hprompt, hp]
    | conf =>
      by_cases hname : parseCmdName line ∈ confCmd
      · simp [request?, unknown?, switch, hcmd, hlive, Shell.sendRequest, hnil, ← hprompt, hp, hname]
      · simp [request?, unknown?, switch, hcmd, hlive, hnil, ← hprompt, hp, hname]

theorem Follows.turn {sh : Shell} {input : List (Option Text)} (h : Follows sh input) (lineRead : Option Text) :
    Follows (sh.turn lineRead) (input ++ [lineRead]) := by
  by_cases hends : Ends input
  · rw [Shell.turn, if_pos (h.exited.mpr hends)]
    have hlines := lines_concat_of_ends hends lineRead
    exact ⟨by simp [h.exited, ends_concat, hends], hlines ▸ h.prompt, hlines ▸ h.logId, hlines ▸ h.sent,
      hlines ▸ h.notFound⟩
  have hlive : sh.exited = false := by
    rw [← Bool.not_eq_true]
    exact fun he => hends (h.exited.mp he)
  by_cases hexit : shellCmd (parseInput lineRead) = some .exit
  · have hne : parseInput lineRead ≠ [] := by
      intro hnil
      rw [hnil] at hexit
      cases hexit
    have hturn : sh.turn lineRead = { sh with exited := true } := by
      simp [Shell.turn, hlive, hne, hexit, Shell.execute]
    have hlines : lines (input ++ [lineRead]) = lines input := by rw [lines_concat hends, if_pos hexit]
    rw [hturn]
    exact ⟨by simp [ends_concat, hexit], hlines ▸ h.prompt, hlines ▸ h.logId, hlines ▸ h.sent, hlines ▸ h.notFound⟩
  · obtain ⟨hexited, hprompt, hlogId, hsent, hnotFound⟩ := Shell.turn_eq hlive h.prompt hexit
    have hlines : lines (input ++ [lineRead]) = lines input ++ [parseInput lineRead] := by
      rw [lines_concat hends, if_neg hexit]
    refine ⟨by simp [hexited, ends_concat, hends, hexit], hlines ▸ hprompt, ?_, ?_, ?_⟩
    · rw [hlogId, hlines, yields_concat, List.length_append, h.logId]
    · rw [hsent, hlines, yields_concat, h.sent, h.logId]
      cases request? (lines input) (parseInput lineRead) with
      | none => simp
      | some r => exact (numbered_concat _ r).symm
    · rw [hnotFound, hlines, yields_concat, h.notFound]

theorem follows_run (input : List (Option Text)) : Follows (run input) input := by
  induction input using List.reverseRecOn with
  | nil => exact ⟨by simp [run, Shell.start, Ends], rfl, rfl, rfl, rfl⟩
  | append_singleton input lineRead ih =>
    rw [run, List.foldl_concat]
    exact ih.turn lineRead

theorem type_of_request? {before : List Text} {line : Text} {r : Text × Text} (h : request? before line = some r) :
    r.1 = "sql".toList ∨ r.1 = "conf".toList := by
  unfold request? at h
  split at h
  · cases h
  split at h
  · cases h
    exact .inl rfl
  · split at h
    · cases h
      exact .inr rfl
    · cases h

theorem type_of_sent {input : List (Option Text)} {r : Request} (hr : r ∈ (run input).sent) :
    r.msgType = "sql".toList ∨ r.msgType = "conf".toList := by
  rw [(follows_run input).sent, numbered] at hr
  obtain ⟨x, hx, rfl⟩ := List.mem_map.mp hr
  obtain ⟨i, -, hi⟩ := List.mem_filterMap.mp (List.fst_mem_of_mem_zipIdx hx)
  obtain ⟨line, -, hreq⟩ := Option.bind_eq_some_iff.mp hi
  exact type_of_request? hreq

/-- **A session of the client with the server.** The client sends the lines before the first `exit` that are neither empty
nor commands of the shell, in their order, as requests with the numbers 1, 2, ...: as `sql`, or behind `conf` as `conf` if
they begin with a registered name. The server runs the SQL requests; it answers all others with `error`, as it knows
`config` and no `conf`. Only `exit` ends the client, and the end of the input does not. -/
theorem session_answers {α : Type} (h : Handlers α) (input : List (Option Text)) :
    (run input).sent = numbered (yields request? (lines input)) ∧
      (run input).notFound = yields unknown? (lines input) ∧
      ((run input).exited = true ↔ Ends input) ∧
      ∀ r ∈ (run input).sent, dealWithMsg h r.msgType r.msg =
        if r.msgType = "sql".toList then h.sqlExecute r.msg else h.answer "error".toList := by
  have hrun := follows_run input
  refine ⟨hrun.sent, hrun.notFound, hrun.exited, fun r hr => ?_⟩
  obtain htype | htype := type_of_sent hr
  · rw [htype]
    rfl
  · rw [htype]
    rfl

example : (run [some "exit ".toList, some "conf".toList, some "partition book".toList, none, some "exit".toList]).sent =
    [⟨"sql".toList, "exit ".toList, 1⟩, ⟨"conf".toList, "partition book".toList, 2⟩] := by decide

end EasyDDB.Client
