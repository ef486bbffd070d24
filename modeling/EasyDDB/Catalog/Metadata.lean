import EasyDDB.Catalog.Condition
import EasyDDB.Lib.Strings
import Mathlib.Data.Prod.Lex
import Mathlib.Data.String.Basic

/-! # The catalog

`Fragment` and `metadataTable` of `utils.h`, with the fragment names `pair<string, int>` that key
every map of the optimizer. `size` of a fragment is the field `build_query_tree` and `getMetadata`
use. -/
namespace EasyDDB
set_option autoImplicit false

/-- `pair<string, int>`: the table of a fragment and its number in the table. -/
structure FragName where
  table : String
  num : Int
deriving DecidableEq, Repr

theorem FragName.toLex_injective : Function.Injective fun f : FragName => toLex (f.table, f.num) := by
  intro a b h
  cases a
  cases b
  simpa using h

/-- The lexicographic order in which a `map` keyed by fragment names is iterated. -/
instance : LinearOrder FragName :=
  LinearOrder.lift' (fun f => toLex (f.table, f.num)) FragName.toLex_injective

/-- The two fragmentation schemas, `"hf"` and `"vf"`. -/
inductive Schema where
  | hf | vf
deriving DecidableEq, Repr

structure Fragment where
  fname : FragName
  site : Int
  type : Schema
  size : Int
  vfColumn : List String
  hfCondition : List Condition
deriving DecidableEq, Repr

structure MetadataTable where
  name : String
  type : Schema
  keyColumn : String
  frags : List Fragment
  attrs : List String
deriving DecidableEq, Repr

/-- The qualified key column of a table. -/
def MetadataTable.key (t : MetadataTable) : String := t.name ++ "." ++ t.keyColumn

/-- `findTable`. Without a match the source function ends without a value. -/
def findTable (Tables : List MetadataTable) (tableName : String) : Option MetadataTable :=
  Tables.find? fun x => x.name = tableName

/-! ## The catalog of `getMetadata` -/

section
variable (table attr : String)

/-- The conditions `getMetadata` writes as text: `table.attr<v`, `table.attr>=v`, `table.attr=s`. The
parser leaves the result `-1` of its integer conversion in `ival` of a string condition, and in `sval` of
`table.attr>=v` what it has read behind `>`. -/
def condLt (v : Int) : Condition := ⟨table, attr, .lt, .int, v, ""⟩
def condGe (v : Int) : Condition := ⟨table, attr, .ge, .int, v, String.ofList ('=' :: Strings.toText v)⟩
def condEqStr (s : String) : Condition := ⟨table, attr, .eq, .string, -1, s⟩

end

/-- A horizontal fragment stored on the site of its number. -/
def hfFragment (table : String) (num size : Int) (conditions : List Condition) : Fragment :=
  { fname := ⟨table, num⟩, site := num, type := .hf, size := size, vfColumn := [], hfCondition := conditions }

/-- A vertical fragment stored on the site of its number. -/
def vfFragment (table : String) (num size : Int) (columns : List String) : Fragment :=
  { fname := ⟨table, num⟩, site := num, type := .vf, size := size, vfColumn := columns, hfCondition := [] }

def publisher : MetadataTable where
  name := "Publisher"
  type := .hf
  keyColumn := "id"
  attrs := ["Publisher.id", "Publisher.name", "Publisher.nation"]
  frags :=
    [hfFragment "Publisher" 1 46621 [condLt "Publisher" "id" 104000, condEqStr "Publisher" "nation" "PRC"],
     hfFragment "Publisher" 2 222 [condLt "Publisher" "id" 104000, condEqStr "Publisher" "nation" "USA"],
     hfFragment "Publisher" 3 12190 [condGe "Publisher" "id" 104000, condEqStr "Publisher" "nation" "PRC"],
     hfFragment "Publisher" 4 444 [condGe "Publisher" "id" 104000, condEqStr "Publisher" "nation" "USA"]]

def customer : MetadataTable where
  name := "Customer"
  type := .vf
  keyColumn := "id"
  attrs := ["Customer.id", "Customer.name", "Customer.rank"]
  frags :=
    [vfFragment "Customer" 1 105000 ["Customer.id", "Customer.name"],
     vfFragment "Customer" 2 105000 ["Customer.id", "Customer.rank"]]

def book : MetadataTable where
  name := "Book"
  type := .hf
  keyColumn := "id"
  attrs := ["Book.id", "Book.title", "Book.authors", "Book.publisher_id", "Book.copies"]
  frags :=
    [hfFragment "Book" 1 118776 [condLt "Book" "id" 205000],
     hfFragment "Book" 2 118800 [condGe "Book" "id" 205000, condLt "Book" "id" 210000],
     hfFragment "Book" 3 950423 [condGe "Book" "id" 210000]]

def orders : MetadataTable where
  name := "Orders"
  type := .hf
  keyColumn := ""
  attrs := ["Orders.customer_id", "Orders.book_id", "Orders.quantity"]
  frags :=
    [hfFragment "Orders" 1 1000 [condLt "Orders" "customer_id" 307000, condLt "Orders" "book_id" 215000],
     hfFragment "Orders" 2 1000 [condLt "Orders" "customer_id" 307000, condGe "Orders" "book_id" 215000],
     hfFragment "Orders" 3 184796 [condGe "Orders" "customer_id" 307000, condLt "Orders" "book_id" 215000],
     hfFragment "Orders" 4 435846 [condGe "Orders" "customer_id" 307000, condGe "Orders" "book_id" 215000]]

/-- `getMetadata`. -/
def getMetadata : List MetadataTable := [publisher, customer, book, orders]

end EasyDDB
