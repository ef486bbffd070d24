import EasyDDB.Lib.Loops
import EasyDDB.Lib.Strings
import EasyDDB.Optimizer.Assigned
import Mathlib.Data.List.DropRight

/-! # The picture of a query tree

`Tree::createPrintFile` writes a line for each node to a file, from which `printTree.py` draws the tree, each node in the
colour of its site. The text of a condition is a parameter: the source asks for it by a member that `Condition` does not
have. -/
namespace EasyDDB.Optimizer
open Strings
set_option autoImplicit false

/-! ## The file -/

/-- `type` -/
def NodeType.text : NodeType → List Char
  | .fragment => "Fragment".toList
  | .union => "Union".toList
  | .join => "Join".toList

section
variable (condStr : Condition → List Char)

/-- The part of `treeNode::getStr` before the first bar. -/
def TreeNode.label (n : TreeNode) : List Char :=
  let res :=
    if n.type = .fragment then n.type.text ++ ' ' :: (n.fname.table.toList ++ toText n.fname.num ++ ['\t'])
    else n.type.text ++ ['\t']
  let res :=
    if n.projection ≠ [] then
      let res := n.projection.zipIdx.foldl
        (fun res x => res ++ x.1.toList ++ [','] ++ if (x.2 + 1) % 2 = 0 then ['\t'] else [])
        (res ++ "Projection(".toList)
      res.rdropWhile (fun c => c = '\t' ∨ c = ',') ++ ") \t".toList
    else res
  if n.select ≠ [] then
    let res := n.select.foldl (fun res x => res ++ condStr x ++ [',', '\t']) (res ++ "Select(".toList)
    res.dropLast.dropLast ++ ") \t".toList
  else res

/-- `treeNode::getStr` -/
def TreeNode.getStr (n : TreeNode) : List Char :=
  let res := n.label condStr ++ '|' :: (toText n.site ++ ['|'])
  let res := n.child.foldl (fun res x => res ++ numeral x ++ [',']) res
  if res.getLast? = some ',' then res.dropLast else res

/-- The file `Tree::createPrintFile` writes. -/
def Tree.createPrintFile (t : Tree) : List Char :=
  t.tr.zipIdx.flatMap fun n => numeral n.2 ++ '|' :: (n.1.getStr condStr ++ ['\n'])

end

/-! ## The drawing -/

/-- The calls of `dot.node`, with a label and a colour, and of `dot.edge`. -/
structure Drawing where
  nodes : List (List Char × List Char × List Char)
  edges : List (List Char × List Char)
deriving DecidableEq, Repr

/-- `color_dict` -/
def colorDict : List (Int × List Char) :=
  [(1, "#EEA29A".toList), (2, "#FFEF96".toList), (3, "#D9ECD0".toList), (4, "#B7D7E8".toList)]

/-- `str.strip` -/
def strip (line : List Char) : List Char := (line.dropWhile Char.isWhitespace).rdropWhile Char.isWhitespace

/-- `int` of a text of digits with or without a sign; anything else raises an error. -/
def pyInt : List Char → Option Int
  | '-' :: digits => if digits ≠ [] ∧ digits.all Char.isDigit then some (-Nat.ofDigitChars 10 digits 0) else none
  | digits => if digits ≠ [] ∧ digits.all Char.isDigit then some (Nat.ofDigitChars 10 digits 0) else none

/-- One round of the loop of `printTree.py`; an index or a key that does not exist ends the script. -/
def drawLine (dot : Drawing) (line : List Char) : Option Drawing := do
  let line := (strip line).map fun c => if c = '\t' then '\n' else c
  let res := line.splitOn '|'
  let name ← res[0]?
  let label ← res[1]?
  let site ← res[2]?.bind pyInt
  let fillcolor ← colorDict.lookup site
  let child ← res[3]?
  let dot : Drawing := { dot with nodes := dot.nodes ++ [(name, label, fillcolor)] }
  some { dot with edges := dot.edges ++ ((child.splitOn ',').filter (· ≠ [])).map fun c => (c, name) }

/-- The line ends of a file opened as text. -/
def universalNewlines : List Char → List Char
  | [] => []
  | '\r' :: '\n' :: s => '\n' :: universalNewlines s
  | '\r' :: s => '\n' :: universalNewlines s
  | c :: s => c :: universalNewlines s

/-- `printTree.py` -/
def printTree (file : List Char) : Option Drawing :=
  (getlines '\n' (universalNewlines file)).foldlM drawLine ⟨[], []⟩

/-! ## What is drawn -/

/-- Some numbered nodes as they should be drawn, with an edge from each child. -/
def drawn (condStr : Condition → List Char) (nodes : List (TreeNode × Nat)) : Drawing where
  nodes := nodes.map fun n => (numeral n.2, (n.1.label condStr).map (fun c => if c = '\t' then '\n' else c),
    (colorDict.lookup n.1.site).getD [])
  edges := nodes.flatMap fun n => n.1.child.map fun c => (numeral c, numeral n.2)

/-- Names and conditions without the signs that structure the file. -/
structure PlainLabel (condStr : Condition → List Char) (n : TreeNode) : Prop where
  bar : '|' ∉ n.label condStr
  newline : '\n' ∉ n.label condStr
  carriage : '\r' ∉ n.label condStr

instance (condStr : Condition → List Char) (n : TreeNode) : Decidable (PlainLabel condStr n) :=
  decidable_of_iff ('|' ∉ n.label condStr ∧ '\n' ∉ n.label condStr ∧ '\r' ∉ n.label condStr)
    ⟨fun h => ⟨h.1, h.2.1, h.2.2⟩, fun h => ⟨h.bar, h.newline, h.carriage⟩⟩

/-- The numbers of the children with commas between them. -/
def childText (child : List Nat) : List Char := [','].intercalate (child.map numeral)

section
variable {condStr : Condition → List Char} {n : TreeNode} {i : Nat}

theorem notMem_numeral {c : Char} (h : c.isDigit = false) (k : Nat) : c ∉ numeral k := by
  intro hc
  rw [isDigit_of_mem_numeral hc] at h
  cases h

theorem notMem_toText {c : Char} (h : c.isDigit = false) (hminus : c ≠ '-') (v : Int) : c ∉ toText v := by
  unfold toText
  split
  · exact List.not_mem_cons_of_ne_of_not_mem hminus (notMem_numeral h _)
  · exact notMem_numeral h _

theorem notMem_childText {c : Char} (h : c.isDigit = false) (hcomma : c ≠ ',') (child : List Nat) :
    c ∉ childText child := by
  by_cases hchild : child.map numeral = []
  · rw [childText, hchild]
    exact List.not_mem_nil
  · rw [childText, ← dropLast_flatMap hchild]
    intro hc
    obtain ⟨piece, hpiece, hc⟩ := List.mem_flatMap.mp (List.mem_of_mem_dropLast hc)
    obtain ⟨k, -, rfl⟩ := List.mem_map.mp hpiece
    obtain hc | hc := List.mem_append.mp hc
    · exact notMem_numeral h k hc
    · exact hcomma (List.mem_singleton.mp hc)

/-- The fields of a line. -/
theorem getStr_eq (condStr : Condition → List Char) (n : TreeNode) :
    n.getStr condStr = n.label condStr ++ '|' :: (toText n.site ++ '|' :: childText n.child) := by
  have hfold : ∀ res, n.child.foldl (fun res x => res ++ numeral x ++ [',']) res =
      res ++ (n.child.map numeral).flatMap fun piece => piece ++ [','] := by
    intro res
    simp only [List.append_assoc]
    rw [List.foldl_append_eq_append, List.flatMap_map, ← List.flatMap_def]
  unfold TreeNode.getStr childText
  dsimp only
  rw [hfold]
  by_cases hchild : n.child.map numeral = []
  · have hbar : n.label condStr ++ '|' :: (toText n.site ++ ['|']) = (n.label condStr ++ '|' :: toText n.site) ++ ['|'] := by
      simp
    rw [hchild, List.flatMap_nil, List.append_nil, hbar, List.getLast?_concat, if_neg (by decide)]
    simp
  · have hlast : ((n.child.map numeral).flatMap fun piece => piece ++ [',']).getLast? = some ',' := by
      obtain ⟨pieces, piece, hpieces⟩ := List.eq_nil_or_concat (n.child.map numeral) |>.resolve_left hchild
      rw [hpieces]
      simp
    have hne : (n.child.map numeral).flatMap (fun piece => piece ++ [',']) ≠ [] := by
      intro hnil
      rw [hnil] at hlast
      cases hlast
    rw [List.getLast?_append, hlast, Option.some_or, if_pos rfl, List.dropLast_append_of_ne_nil hne,
      dropLast_flatMap hchild]
    simp

/-- The line of a node. -/
def nodeLine (condStr : Condition → List Char) (n : TreeNode) (i : Nat) : List Char :=
  numeral i ++ '|' :: (n.label condStr ++ '|' :: (toText n.site ++ '|' :: childText n.child))

theorem createPrintFile_eq (condStr : Condition → List Char) (t : Tree) :
    t.createPrintFile condStr =
      (t.tr.zipIdx.map fun n => nodeLine condStr n.1 n.2).flatMap fun line => line ++ ['\n'] := by
  rw [Tree.createPrintFile, List.flatMap_map]
  refine List.flatMap_congr fun n _ => ?_
  rw [getStr_eq, nodeLine]
  simp

theorem notMem_nodeLine {c : Char} (h : c.isDigit = false) (hsign : c ∉ ['-', ',', '|']) (hlabel : c ∉ n.label condStr)
    (i : Nat) : c ∉ nodeLine condStr n i := by
  simp only [List.mem_cons, List.not_mem_nil, or_false, not_or] at hsign
  obtain ⟨hminus, hcomma, hbar⟩ := hsign
  simp only [nodeLine, List.mem_append, List.mem_cons, notMem_numeral h, notMem_toText h hminus,
    notMem_childText h hcomma, hbar, hlabel, or_self, not_false_eq_true]

/-- There is nothing to strip from a line. -/
theorem strip_nodeLine (condStr : Condition → List Char) (n : TreeNode) (i : Nat) :
    strip (nodeLine condStr n i) = nodeLine condStr n i := by
  have hspace : ∀ c : Char, c.isDigit = true → c.isWhitespace = false := by
    intro c hc
    have hne : ∀ d : Char, d.isDigit = false → c ≠ d := by
      rintro d hd rfl
      rw [hc] at hd
      cases hd
    simp [Char.isWhitespace, hne ' ' rfl, hne '\t' rfl, hne '\r' rfl, hne '\n' rfl]
  have hfirst : (nodeLine condStr n i).dropWhile Char.isWhitespace = nodeLine condStr n i := by
    obtain ⟨c, rest, hc⟩ := List.exists_cons_of_ne_nil (numeral_ne_nil i)
    have hdigit : c.isDigit = true := isDigit_of_mem_numeral (hc ▸ List.mem_cons_self)
    rw [nodeLine, hc, List.cons_append, List.dropWhile_cons_of_neg (by simp [hspace c hdigit])]
  rw [strip, hfirst, List.rdropWhile_eq_self_iff]
  intro hne hlast
  have hmem : (nodeLine condStr n i).getLast hne ∈ '|' :: childText n.child := by
    have hsplit : nodeLine condStr n i =
        (numeral i ++ '|' :: (n.label condStr ++ '|' :: toText n.site)) ++ '|' :: childText n.child := by
      simp [nodeLine]
    simp only [hsplit]
    rw [List.getLast_append_of_ne_nil _ (List.cons_ne_nil _ _)]
    exact List.getLast_mem _
  obtain hbar | hchild := List.mem_cons.mp hmem
  · rw [hbar] at hlast
    exact absurd hlast (by decide)
  · by_cases hdigit : ((nodeLine condStr n i).getLast hne).isDigit = true
    · rw [hspace _ hdigit] at hlast
      cases hlast
    · by_cases hcomma : (nodeLine condStr n i).getLast hne = ','
      · rw [hcomma] at hlast
        exact absurd hlast (by decide)
      · exact notMem_childText (Bool.not_eq_true _ ▸ hdigit) hcomma _ hchild

theorem splitOn_childText (child : List Nat) : ((childText child).splitOn ',').filter (· ≠ []) = child.map numeral := by
  by_cases hchild : child.map numeral = []
  · rw [childText, hchild]
    rfl
  · have hpieces : ∀ l ∈ child.map numeral, ',' ∉ l ∧ l ≠ [] := by
      intro l hl
      obtain ⟨k, -, rfl⟩ := List.mem_map.mp hl
      exact ⟨notMem_numeral rfl k, numeral_ne_nil k⟩
    rw [childText, List.splitOn_intercalate ',' (fun l hl => (hpieces l hl).1) hchild, List.filter_eq_self]
    exact fun l hl => decide_eq_true (hpieces l hl).2

/-- A line is drawn as its node should be. -/
theorem drawLine_nodeLine (hplain : PlainLabel condStr n) (hsite : n.site ∈ ([1, 2, 3, 4] : List Int)) (i : Nat)
    (dot : Drawing) :
    drawLine dot (nodeLine condStr n i) =
      some ⟨dot.nodes ++ (drawn condStr [(n, i)]).nodes, dot.edges ++ (drawn condStr [(n, i)]).edges⟩ := by
  let tabs : Char → Char := fun c => if c = '\t' then '\n' else c
  have hkeep : ∀ text : List Char, '\t' ∉ text → text.map tabs = text := by
    intro text htext
    refine (List.map_congr_left fun c hc => ?_).trans (List.map_id text)
    have hne : c ≠ '\t' := fun heq => htext (heq ▸ hc)
    exact if_neg hne
  have hfields : (nodeLine condStr n i).map tabs = ['|'].intercalate
      [numeral i, (n.label condStr).map tabs, toText n.site, childText n.child] := by
    simp only [nodeLine, List.map_append, List.map_cons, hkeep _ (notMem_numeral rfl i),
      hkeep _ (notMem_toText rfl (by decide) n.site), hkeep _ (notMem_childText rfl (by decide) n.child)]
    simp [List.intercalate, tabs]
  have hbar : ∀ l ∈ [numeral i, (n.label condStr).map tabs, toText n.site, childText n.child], '|' ∉ l := by
    simp only [List.forall_mem_cons, List.not_mem_nil, false_implies, implies_true, and_true]
    refine ⟨notMem_numeral rfl i, fun hmem => ?_, notMem_toText rfl (by decide) _, notMem_childText rfl (by decide) _⟩
    obtain ⟨c, hc, heq⟩ := List.mem_map.mp hmem
    by_cases htab : c = '\t'
    · rw [htab] at heq
      exact absurd heq (by decide)
    · rw [show tabs c = c from if_neg htab] at heq
      exact hplain.bar (heq ▸ hc)
  have hsplit := List.splitOn_intercalate '|' hbar (List.cons_ne_nil _ _)
  have hint : pyInt (toText n.site) = some n.site ∧ (colorDict.lookup n.site).isSome := by
    simp only [List.mem_cons, List.not_mem_nil, or_false] at hsite
    obtain h | h | h | h := hsite <;> rw [h] <;> decide
  obtain ⟨color, hcolor⟩ := Option.isSome_iff_exists.mp hint.2
  have hline : (strip (nodeLine condStr n i)).map tabs = _ := (congrArg _ (strip_nodeLine condStr n i)).trans hfields
  simp only [drawLine]
  rw [show ((strip (nodeLine condStr n i)).map fun c => if c = '\t' then '\n' else c) = _ from hline, hsplit]
  simp only [List.getElem?_cons_zero, List.getElem?_cons_succ, Option.bind_eq_bind, Option.bind_some, hint.1, hcolor,
    splitOn_childText, drawn, List.map_cons, List.map_nil, List.flatMap_cons, List.flatMap_nil, List.append_nil,
    Option.getD_some, List.map_map, Function.comp_def]
  rfl

end

theorem universalNewlines_eq {file : List Char} (h : '\r' ∉ file) : universalNewlines file = file := by
  induction file with
  | nil => rfl
  | cons c file ih =>
    rw [List.mem_cons, not_or] at h
    unfold universalNewlines
    split
    · next heq => cases heq
    · next heq => exact absurd (List.cons.inj heq).1.symm h.1
    · next heq => exact absurd (List.cons.inj heq).1.symm h.1
    · next heq =>
      cases heq
      rw [ih h.2]

/-- The script draws the tree whose file it reads. -/
theorem printTree_createPrintFile (condStr : Condition → List Char) (t : Tree) (hplain : ∀ n ∈ t.tr, PlainLabel condStr n)
    (hsites : ∀ n ∈ t.tr, n.site ∈ ([1, 2, 3, 4] : List Int)) :
    printTree (t.createPrintFile condStr) = some (drawn condStr t.tr.zipIdx) := by
  have hmem : ∀ n ∈ t.tr.zipIdx, n.1 ∈ t.tr := fun n hn => List.fst_mem_of_mem_zipIdx hn
  have hlines : ∀ line ∈ t.tr.zipIdx.map (fun n => nodeLine condStr n.1 n.2), '\n' ∉ line ∧ '\r' ∉ line := by
    intro line hline
    obtain ⟨n, hn, rfl⟩ := List.mem_map.mp hline
    have hlabel := hplain n.1 (hmem n hn)
    exact ⟨notMem_nodeLine rfl (by decide) hlabel.newline _, notMem_nodeLine rfl (by decide) hlabel.carriage _⟩
  have hfile : '\r' ∉ t.createPrintFile condStr := by
    rw [createPrintFile_eq]
    intro hcr
    obtain ⟨line, hline, hcr⟩ := List.mem_flatMap.mp hcr
    obtain hcr | hcr := List.mem_append.mp hcr
    · exact (hlines line hline).2 hcr
    · exact absurd (List.mem_singleton.mp hcr) (by decide)
  rw [printTree, universalNewlines_eq hfile, createPrintFile_eq, getlines_flatMap fun line hline => (hlines line hline).1,
    List.foldlM_map]
  obtain ⟨dot, hrun, rfl⟩ : ∃ dot, t.tr.zipIdx.foldlM (fun dot n => drawLine dot (nodeLine condStr n.1 n.2)) ⟨[], []⟩ =
      some dot ∧ dot = drawn condStr t.tr.zipIdx := by
    refine Loops.progress_seen (I := fun seen dot => dot = drawn condStr seen) ?_ rfl
    rintro pre n post hsplit dot rfl
    have hn : n.1 ∈ t.tr := hmem n (hsplit ▸ List.mem_append_right _ List.mem_cons_self)
    refine ⟨_, drawLine_nodeLine (hplain _ hn) (hsites _ hn) n.2 _, ?_⟩
    simp [drawn]
  exact hrun

/-! ## The sites of the nodes -/

/-- Every node has one of the four sites. -/
def OnSites (tr : List TreeNode) : Prop := ∀ n ∈ tr, n.site ∈ ([1, 2, 3, 4] : List Int)

section
variable {tr tr' : List TreeNode} {s s' : Build} {site : Int} {mpTr : FragName → Nat} {selectAttr : List String}
  {Join : List JoinCell}

theorem OnSites.append (h : OnSites tr) (h' : OnSites tr') : OnSites (tr ++ tr') :=
  List.forall_mem_append.mpr ⟨h, h'⟩

theorem OnSites.concat (h : OnSites tr) {n : TreeNode} (hn : n.site ∈ ([1, 2, 3, 4] : List Int)) : OnSites (tr ++ [n]) :=
  h.append (List.forall_mem_singleton.mpr hn)

theorem OnSites.modify (h : OnSites tr) {f : TreeNode → TreeNode} (hf : ∀ n, (f n).site = n.site) (i : Nat) :
    OnSites (tr.modify i f) := by
  intro n hn
  obtain ⟨j, hj⟩ := List.mem_iff_getElem?.mp hn
  rw [List.getElem?_modify] at hj
  obtain ⟨m, hm, rfl⟩ := Option.map_eq_some_iff.mp hj
  have hsite := h m (List.mem_of_getElem? hm)
  split
  · rwa [hf]
  · exact hsite

theorem OnSites.setParent (h : OnSites tr) (i par : Nat) : OnSites (setParent tr i par) := by
  unfold Optimizer.setParent
  refine h.modify ?_ i
  exact fun _ => rfl

theorem getTreeNode_onSites (h : OnSites s.tr) {x : FragName} {i : Nat} (hget : getTreeNode mpTr x s = some (i, s')) :
    OnSites s'.tr := by
  unfold getTreeNode at hget
  split at hget
  · simp only [Option.bind_eq_bind, Option.bind_eq_some_iff] at hget
    obtain ⟨node, hnode, hget⟩ := hget
    cases hget
    exact h.concat (h node (List.mem_of_getElem? hnode))
  · cases hget
    exact h

theorem addChild_onSites (h : OnSites s.tr) {rel : String} {par : Nat} {num : Int}
    (hadd : addChild mpTr rel par s num = some s') : OnSites s'.tr := by
  simp only [addChild, Option.bind_eq_bind, Option.bind_eq_some_iff, Prod.exists] at hadd
  obtain ⟨idx, c, hget, node, -, hadd⟩ := hadd
  cases hadd
  refine OnSites.setParent (OnSites.modify (getTreeNode_onSites h hget) ?_ par) idx par
  exact fun _ => rfl

variable (hsite : site ∈ ([1, 2, 3, 4] : List Int))
include hsite

theorem operand_onSites (h : OnSites s.tr) {rel : String} {nums : List Int} {i : Nat}
    (hop : operand site mpTr rel nums s = some (i, s')) : OnSites s'.tr := by
  unfold operand at hop
  split at hop
  · exact getTreeNode_onSites h hop
  · simp only [Option.bind_eq_bind, Option.bind_eq_some_iff] at hop
    obtain ⟨c, hfold, hop⟩ := hop
    cases hop
    exact Loops.invariant (I := fun c : Build => OnSites c.tr) (fun _ _ _ _ hc hadd => addChild_onSites hc hadd)
      (h.concat hsite) hfold

theorem operands_onSites {rels : List String} {plist : Pattern} {is : List Nat} (h : OnSites s.tr)
    (hops : operands site mpTr rels plist s = some (is, s')) : OnSites s'.tr := by
  induction rels generalizing plist is s with
  | nil =>
    cases hops
    exact h
  | cons rel rels ih =>
    cases plist with
    | nil =>
      cases hops
      exact h
    | cons nums plist =>
      simp only [operands, Option.bind_eq_bind, Option.bind_eq_some_iff, Prod.exists] at hops
      obtain ⟨i, c, hop, is', c', hrest, hops⟩ := hops
      cases hops
      exact ih (operand_onSites hsite h hop) hrest

theorem joinChain_onSites {cs : List JoinCell} {is : List Nat} {par par' : Nat} (h : OnSites s.tr)
    (hchain : joinChain site selectAttr cs is par s = some (par', s')) : OnSites s'.tr := by
  induction cs generalizing is par s with
  | nil =>
    cases hchain
    exact h
  | cons c cs ih =>
    cases is with
    | nil =>
      cases hchain
      exact h
    | cons i is =>
      simp only [joinChain, pushJoin, Option.bind_eq_bind, Option.bind_eq_some_iff, Prod.exists] at hchain
      obtain ⟨par₁, c₁, ⟨x, -, y, -, hpush⟩, hrest⟩ := hchain
      cases hpush
      exact ih (((h.concat hsite).setParent _ _).setParent _ _) hrest

theorem buildPattern_onSites {plist : Pattern} (h : OnSites s.tr)
    (hbuild : buildPattern site mpTr selectAttr Join s plist = some s') : OnSites s'.tr := by
  simp only [buildPattern, Option.bind_eq_bind, Option.bind_eq_some_iff, Prod.exists] at hbuild
  obtain ⟨is, c, hops, hbuild⟩ := hbuild
  have hc := operands_onSites hsite h hops
  cases is with
  | nil => cases hbuild
  | cons i is =>
    simp only [Option.bind_eq_some_iff, Prod.exists] at hbuild
    obtain ⟨par, c', hchain, hbuild⟩ := hbuild
    cases hbuild
    exact joinChain_onSites hsite hc hchain

theorem buildSite_onSites {JoinSite : Int → List (List FragName)} (h : OnSites s.tr)
    (hbuild : buildSite mpTr selectAttr Join JoinSite s site = some s') : OnSites s'.tr := by
  unfold buildSite at hbuild
  split at hbuild
  · cases hbuild
    exact h
  · simp only [Option.bind_eq_bind, Option.bind_eq_some_iff] at hbuild
    obtain ⟨res, -, hbuild⟩ := hbuild
    exact Loops.invariant (I := fun c : Build => OnSites c.tr)
      (fun _ _ _ _ hc hpattern => buildPattern_onSites hsite hc hpattern) h hbuild

end

/-- Fragments on the four sites, and not of a negative size. -/
def FourSites (Tables : List MetadataTable) (fromTable : List String) : Prop :=
  ∀ T ∈ Tables, T.name ∈ fromTable → ∀ F ∈ T.frags, F.site ∈ ([1, 2, 3, 4] : List Int) ∧ 0 ≤ F.size

instance (Tables : List MetadataTable) (fromTable : List String) : Decidable (FourSites Tables fromTable) :=
  List.decidableBAll _ Tables

theorem largestSite_mem {nodes : List TreeNode} (hne : nodes ≠ []) (hsites : OnSites nodes)
    (hsize : ∀ n ∈ nodes, 0 ≤ n.size) : largestSite nodes ∈ ([1, 2, 3, 4] : List Int) := by
  have hloop : ∀ (nodes : List TreeNode) (m : Int × Int), OnSites nodes → m.2 ∈ ([1, 2, 3, 4] : List Int) →
      (nodes.foldl (fun m n => if m.1 ≤ n.size then (n.size, n.site) else m) m).2 ∈ ([1, 2, 3, 4] : List Int) := by
    intro nodes
    induction nodes with
    | nil => exact fun _ _ hm => hm
    | cons n nodes ih =>
      intro m hnodes hm
      obtain ⟨hn, hnodes⟩ := List.forall_mem_cons.mp hnodes
      rw [List.foldl_cons]
      refine ih _ hnodes ?_
      split
      · exact hn
      · exact hm
  obtain ⟨n, nodes, rfl⟩ := List.exists_cons_of_ne_nil hne
  obtain ⟨hn, hnodes⟩ := List.forall_mem_cons.mp hsites
  rw [largestSite, List.foldl_cons, if_pos (hsize n List.mem_cons_self)]
  exact hloop nodes _ hnodes hn

theorem vfOperands_onSites {q : Query} {T : MetadataTable}
    (hfrags : ∀ F ∈ T.frags, F.site ∈ ([1, 2, 3, 4] : List Int) ∧ 0 ≤ F.size) :
    ∀ n ∈ vfOperands q T, n.site ∈ ([1, 2, 3, 4] : List Int) ∧ 0 ≤ n.size := by
  intro n hn
  obtain ⟨F, hF, projection, rfl⟩ := vfOperands_node hn
  exact hfrags F (List.mem_filter.mp hF).1

theorem scanTables_onSites {q : Query} {Tables : List MetadataTable} {s : Scan} (hcat : FourSites Tables q.fromTable)
    (h : scanTables q Tables = some s) : OnSites s.tr := by
  refine Loops.invariant (I := fun c : Scan => OnSites c.tr) ?_ (fun _ hn => absurd hn List.not_mem_nil) h
  intro T hT c c' hc hscan
  obtain ⟨-, rfl⟩ | ⟨hfrom, -, hscan⟩ | ⟨hfrom, -, hscan⟩ := scanTable_inv hscan
  · exact hc
  · rw [scanHf_tr hscan]
    refine hc.append fun n hn => ?_
    obtain ⟨F, hF, hn⟩ := List.mem_flatMap.mp hn
    unfold hfNodes at hn
    split at hn
    · obtain rfl := List.mem_singleton.mp hn
      exact (hcat T hT hfrom F hF).1
    · exact absurd hn List.not_mem_nil
  · obtain ⟨first, frag, below, top, siteNums, -, hshape, -, rfl⟩ := scanVf_inv hscan
    have hops := vfOperands_onSites (q := q) (hcat T hT hfrom)
    refine hc.append ?_
    cases hshape with
    | key => exact List.forall_mem_singleton.mpr (by decide : (1 : Int) ∈ ([1, 2, 3, 4] : List Int))
    | one _ hmarked =>
      have hmem : frag ∈ T.frags.filter (vfMarked q T) := hmarked ▸ List.mem_singleton_self frag
      exact List.forall_mem_singleton.mpr (hcat T hT hfrom frag (List.mem_filter.mp hmem).1).1
    | several hlen =>
      refine OnSites.concat (fun n hn => ?_) (largestSite_mem ?_ ?_ ?_)
      · obtain ⟨m, hm, rfl⟩ := List.mem_map.mp hn
        exact (hops m hm).1
      · rw [ne_eq, List.reverse_eq_nil_iff]
        intro hnil
        rw [← List.length_map (f := fun F => keepKey T (vfNode q T F)), ← vfOperands, hnil] at hlen
        exact absurd hlen (by decide)
      · exact fun n hn => (hops n (List.mem_reverse.mp hn)).1
      · exact fun n hn => (hops n (List.mem_reverse.mp hn)).2

/-- Every node of a query tree is on one of the four sites. -/
theorem buildQueryTree_onSites {q : Query} {Tables : List MetadataTable} {t : Tree} (hcat : FourSites Tables q.fromTable)
    (h : buildQueryTree Tables q = some t) : OnSites t.tr := by
  obtain ⟨p, tr, hplan, hforest, rfl⟩ := buildQueryTree_inv h
  have hscan : OnSites p.scan.tr := by
    refine scanTables_onSites ?_ hplan.scan
    rwa [hplan.query_fields.1]
  have htr : OnSites tr := by
    rw [buildForest, Option.map_eq_some_iff] at hforest
    obtain ⟨b, hrun, rfl⟩ := hforest
    exact Loops.invariant (I := fun c : Build => OnSites c.tr)
      (fun site hsite _ _ hc hbuild => buildSite_onSites hsite hc hbuild) hscan hrun
  have hroot : p.processSite.head?.getD 0 ∈ ([1, 2, 3, 4] : List Int) := by
    obtain ⟨hne, hfour⟩ := hplan.processSite_four
    obtain ⟨site, rest, hsites⟩ := List.exists_cons_of_ne_nil hne
    exact hfour _ (hsites ▸ List.mem_cons_self)
  unfold unionPhase
  dsimp only
  split
  · refine OnSites.concat ?_ hroot
    have hfold : ∀ (is : List Nat) (tr : List TreeNode) (par : Nat), OnSites tr →
        OnSites (is.foldl (fun tr i => setParent tr i par) tr) := by
      intro is
      induction is with
      | nil => exact fun _ _ h => h
      | cons i is ih => exact fun tr par h => ih _ par (h.setParent i par)
    exact hfold _ _ _ htr
  · exact htr

/-- **The picture of a query tree is right.** For every catalog of fragments on the four sites and every query, what
`printTree.py` draws from the file of `build_query_tree`'s tree are its nodes, each with its label and in the colour of
its site, and its edges, provided that names and conditions hold neither bars nor line breaks. -/
theorem picture_of_tree (Tables : List MetadataTable) (q : Query) (t : Tree) (condStr : Condition → List Char)
    (hcat : FourSites Tables q.fromTable) (ht : buildQueryTree Tables q = some t)
    (hplain : ∀ n ∈ t.tr, PlainLabel condStr n) :
    printTree (t.createPrintFile condStr) = some (drawn condStr t.tr.zipIdx) :=
  printTree_createPrintFile condStr t hplain (buildQueryTree_onSites hcat ht)

def customerRanks : Query where
  fromTable := ["Customer"]
  selectAttr := ["Customer.name", "Customer.rank"]
  allAttr := ["Customer.name", "Customer.rank"]
  predicate := []
  join := []

/-- The two fragments of `Customer` under their join. -/
theorem customerRanks_drawn : ∃ t dot, buildQueryTree getMetadata customerRanks = some t ∧
    printTree (t.createPrintFile fun c => c.attr.toList) = some dot ∧
    dot.nodes.map (fun n => n.2.1) = ["Fragment Customer1\n".toList, "Fragment Customer2\n".toList,
      "Join\nProjection(Customer.name,Customer.rank) \n".toList] ∧
    dot.edges = [(['1'], ['2']), (['0'], ['2'])] := by
  have hrun : ((buildQueryTree getMetadata customerRanks).any fun t =>
      (∀ n ∈ t.tr, PlainLabel (fun c => c.attr.toList) n) ∧
      (drawn (fun c => c.attr.toList) t.tr.zipIdx).nodes.map (fun n => n.2.1) =
        ["Fragment Customer1\n".toList, "Fragment Customer2\n".toList,
          "Join\nProjection(Customer.name,Customer.rank) \n".toList] ∧
      (drawn (fun c => c.attr.toList) t.tr.zipIdx).edges = [(['1'], ['2']), (['0'], ['2'])]) = true := by
    decide +kernel
  simp only [Option.any_eq_true, decide_eq_true_eq] at hrun
  obtain ⟨t, ht, hplain, hnodes, hedges⟩ := hrun
  exact ⟨t, _, ht, picture_of_tree getMetadata customerRanks t _ (by decide) ht hplain, hnodes, hedges⟩

end EasyDDB.Optimizer
