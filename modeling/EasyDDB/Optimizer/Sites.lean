import EasyDDB.Optimizer.JoinOrder

/-! # Execution sites

The choice of `Rp`, the list `processSite` and the assignment of every join list to a site. -/
namespace EasyDDB.Optimizer
open OrderedMap
set_option autoImplicit false

/-- `sort` of the four `siteNum`s by descending `total`. -/
def sortSites (siteNums : List SiteNum) : List SiteNum :=
  siteNums.insertionSort fun a b => b.total ≤ a.total

/-- `max_element` of `relationSize`: the first table of the largest size. -/
def largestRelation : List (String × Int) → Option String
  | [] => none
  | e :: es => some (es.foldl (fun m e => if m.2 < e.2 then e else m) e).1

/-- The estimated transfer volume of one site. -/
def transferSum (Tables : List MetadataTable) (s : Scan) (conflict : List (FragName × FragName))
    (Rp : String) (x : SiteNum) : Int :=
  Tables.foldl
    (fun sum tab =>
      let sum := if tab.name ≠ Rp then sum + (readKey s.relationSize tab.name - x.rSize tab.name) else sum
      (s.pruning tab.name).foldl
        (fun sum frag =>
          if frag.site ≠ x.site ∧ (⟨Rp, x.site⟩, frag.fname) ∈ conflict then sum - frag.size else sum)
        sum)
    0

/-- The sum of two `int`s, if it is one. -/
def addInt (a b : Int) : Option Int := if -intMax - 1 ≤ a + b ∧ a + b ≤ intMax then some (a + b) else none

/-- `transferSum` with `int`s; `none` stands for an overflow. -/
def transferSumInt (Tables : List MetadataTable) (s : Scan) (conflict : List (FragName × FragName)) (Rp : String)
    (x : SiteNum) : Option Int :=
  Tables.foldlM
    (fun sum tab =>
      (if tab.name ≠ Rp then addInt sum (readKey s.relationSize tab.name - x.rSize tab.name) else some sum).bind
        ((s.pruning tab.name).foldlM fun sum frag =>
          if frag.site ≠ x.site ∧ (⟨Rp, x.site⟩, frag.fname) ∈ conflict then addInt sum (-frag.size) else some sum))
    0

/-- The sites up to the first one whose transfer volume exceeds its share of `Rp`. -/
def candidateSites (Tables : List MetadataTable) (s : Scan) (conflict : List (FragName × FragName))
    (Rp : String) : List SiteNum → List Int
  | [] => []
  | x :: xs =>
    if transferSum Tables s conflict Rp x > x.rSize Rp then []
    else x.site :: candidateSites Tables s conflict Rp xs

/-- `find_site`. -/
def findSite (siteNums : List SiteNum) (site : Int) : Option SiteNum :=
  siteNums.find? fun x => x.site = site

/-- `find_site_total`; without a match the source function ends without a value. -/
def findSiteTotal (siteNums : List SiteNum) (site : Int) : Int :=
  ((findSite siteNums site).map SiteNum.total).getD 0

/-- The loop that moves the site of the largest total to the front of `processSite` by exchanges with
the first entry. -/
def promote (siteNums : List SiteNum) : List Int → List Int
  | [] => []
  | x :: xs =>
    let r := xs.foldl
      (fun (r : Int × List Int) y =>
        if findSiteTotal siteNums y > findSiteTotal siteNums r.1 then (y, r.2 ++ [r.1]) else (r.1, r.2 ++ [y]))
      (x, [])
    r.1 :: r.2

/-- `processSite`. -/
def processSite (Tables : List MetadataTable) (s : Scan) (siteNums : List SiteNum)
    (conflict : List (FragName × FragName)) (Rp : String) : List Int :=
  match candidateSites Tables s conflict Rp siteNums with
  | [] => (siteNums.head?.map SiteNum.site).toList
  | sites => promote siteNums sites

/-- The site of one join list: of its fragments whose number is a process site, the one with the
largest share; the first process site when there is no such fragment. -/
def joinSite (siteNums : List SiteNum) (processSite : List Int) (x : List FragName) : Int :=
  let r := x.foldl
    (fun (m : Nat × Int × Int) y =>
      if y.num ∈ processSite then
        let rSize := ((findSite siteNums y.num).map fun cur => cur.rSize y.table).getD 0
        if rSize > m.2.1 then (m.1 + 1, rSize, y.num) else (m.1 + 1, m.2.1, m.2.2)
      else m)
    (0, 0, 0)
  if r.1 = 0 then processSite.head?.getD 0 else r.2.2

end EasyDDB.Optimizer
