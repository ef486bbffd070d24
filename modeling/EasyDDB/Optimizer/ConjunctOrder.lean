import EasyDDB.Optimizer.OtherEnd

/-! # The order of WHERE conjuncts

Two clauses of the same comparisons make trees that deliver the same rows if both list first a join whose left table is the
same end of the path, or both a join that starts inside. From the two ends of the path the rows are the same where the
sides of a join are treated alike. -/
namespace EasyDDB.Optimizer
set_option autoImplicit false

/-- The plan has nodes, and no site has more join lists than `get_pattern` has room for. -/
def PatternsFit (Tables : List MetadataTable) (q : Query) : Prop :=
  ∀ p, planJoins Tables q = some p → p.scan.tr ≠ [] ∧ ∀ site ∈ ([1, 2, 3, 4] : List Int), (p.joinSite site).length ≤ 300

/-- The first joins of the two clauses have the same left table. -/
def SameStart (q q' : Query) : Prop := q'.join.head?.map JoinCell.ltab = q.join.head?.map JoinCell.ltab

section
variable {Tables : List MetadataTable} {q q' : Query} (hnamed : ∀ T ∈ Tables, ∀ F ∈ T.frags, F.fname.table = T.name)
  {ch : List JoinCell} (hpath : Path ch q.join)
include hnamed hpath

theorem buildForest_defined {p : JoinPlan} (hp : planJoins Tables q = some p) (hfit : PatternsFit Tables q) :
    ∃ tr, buildForest p = some tr := by
  obtain ⟨hne, h300⟩ := hfit p hp
  obtain ⟨tr, htr, -⟩ := buildForest_ready (planJoins_planned hp) hnamed hpath hne h300
  exact ⟨tr, htr⟩

omit hnamed hpath in
theorem buildQueryTree_some {p : JoinPlan} {tr : List TreeNode} (hp : planJoins Tables q = some p)
    (htr : buildForest p = some tr) : ∃ t, buildQueryTree Tables q = some t := by
  simp only [buildQueryTree, hp, htr, Option.bind_eq_bind, Option.bind_some]
  exact ⟨_, rfl⟩

variable (h : q.Reordered q')
include h

/-- Clauses that chain the path alike, or both start inside. -/
theorem eval_of_sameSort (hends : StartsAtEnd q.join ↔ StartsAtEnd q'.join)
    (hsort : StartsAtEnd q.join → sortJoin q'.join = sortJoin q.join) {t t' : Tree}
    (ht : buildQueryTree Tables q = some t) (ht' : buildQueryTree Tables q' = some t') (db : Placement) :
    t'.eval (rowSemantics db) = t.eval (rowSemantics db) := by
  obtain ⟨p, tr, hp, htr, rfl⟩ := buildQueryTree_inv ht
  obtain ⟨p', tr', hp', htr', rfl⟩ := buildQueryTree_inv ht'
  obtain ⟨tr'', htr'', hsame⟩ := buildForest_same hp hp' h hnamed hpath hends hsort htr
  obtain rfl : tr' = tr'' := Option.some.inj (htr'.symm.trans htr'')
  rw [(hp.query_reordered hp' h).selectAttr]
  obtain ⟨hroot, hnodes⟩ := unionPhase_same hsame (p.processSite.head?.getD 0) (p'.processSite.head?.getD 0)
    p.query.selectAttr
  exact eval_same hroot hnodes db

omit hnamed in
/-- Clauses that start at the two ends of the path and do not chain it alike. -/
theorem OtherEnd.eval_turned (hother : OtherEnd Tables q q') (hstart : StartsAtEnd q.join) (hstart' : StartsAtEnd q'.join)
    (hsort : sortJoin q'.join ≠ sortJoin q.join) {t t' : Tree} (ht : buildQueryTree Tables q = some t)
    (ht' : buildQueryTree Tables q' = some t') (db : Placement) :
    (t.eval (rowSemantics db)).Perm (t'.eval (rowSemantics db)) := by
  obtain ⟨p, hp, -⟩ := Option.bind_eq_some_iff.mp ht
  obtain ⟨p', hp', -⟩ := Option.bind_eq_some_iff.mp ht'
  have hjoin : p.join = sortJoin q.join := by
    rw [(planJoins_planned hp).join, (planJoins_planned hp).query_fields.2.2]
  have hjoin' : p'.join = sortJoin q'.join := by
    rw [(planJoins_planned hp').join, (planJoins_planned hp').query_fields.2.2]
  have hturned : sortJoin q'.join = turned (sortJoin q.join) :=
    (sortJoin_eq_or_turned h.join hstart hstart').resolve_left hsort
  have hne : p.join ≠ [] := by
    intro hnil
    rw [← hjoin, hnil] at hturned
    exact hsort (hturned.trans (hjoin ▸ hnil).symm)
  have hmirror := hother.mirrored h hp hp' (hjoin ▸ hstart.chain) hne (by rw [hjoin, hjoin', hturned])
  exact hother.eval_perm h hp hp' hpath hmirror ht ht' db

end

/-- The comparisons `Book.id=Orders.book_id` and `Orders.customer_id=Customer.id`. -/
def bookOfOrder : Expr := .binary .equals (.columnRef "Book" "id") (.columnRef "Orders" "book_id")
def customerOfOrder : Expr := .binary .equals (.columnRef "Orders" "customer_id") (.columnRef "Customer" "id")

/-- `select Book.title, Customer.name from Book, Orders, Customer`, to be followed by a WHERE clause. -/
def booksOfCustomers : SelectStatement where
  fromTable := ["Book", "Orders", "Customer"]
  selectList := [.columnRef "Book" "title", .columnRef "Customer" "name"]
  whereClause := none

/-- The sides of a single join: from the conditions on `Publisher.nation`, which are on strings, the edge phase connects no
fragments, from those on `Orders.customer_id` it does. Only the first clause leaves the publisher without a parent. -/
example : [Expr.binary .equals (.columnRef "Publisher" "nation") (.columnRef "Orders" "customer_id"),
    .binary .equals (.columnRef "Orders" "customer_id") (.columnRef "Publisher" "nation")].map (fun e =>
      (selectProcess getMetadata ⟨["Publisher", "Orders"], [.columnRef "Publisher" "name", .columnRef "Orders" "quantity"],
        some e⟩).map fun t => (t.eval (rowSemantics onePublisher)).length) = [some 1, some 0] := by
  decide +kernel

/-- The two ends of a path whose joins share `Orders.book_id`: read from `Book` the chain drops that column, read from
`Customer` it stays, because `Book.id` on the other side of the last join is selected. -/
example : [[("Book", "id", "Orders", "book_id"), ("Orders", "book_id", "Customer", "id")],
    [("Customer", "id", "Orders", "book_id"), ("Orders", "book_id", "Book", "id")]].map (fun joins =>
      (selectProcess getMetadata
        { fromTable := ["Book", "Orders", "Customer"]
          selectList := [.columnRef "Book" "id", .columnRef "Customer" "name"]
          whereClause := some (joins.foldr
            (fun j e => .binary .and (.binary .equals (.columnRef j.1 j.2.1) (.columnRef j.2.2.1 j.2.2.2)) e)
            (.binary .and (.binary .less (.columnRef "Book" "id") (.literal none 205000))
              (.binary .less (.columnRef "Orders" "customer_id") (.literal none 1000)))) }).bind fun t =>
          (t.tr[t.root.toNat]?).map TreeNode.output) =
      [some ["Book.id", "Customer.name"], some ["Book.id", "Customer.name", "Orders.book_id"]] := by
  decide +kernel

/-- `Book.id<205000`, and the join of customers with its sides exchanged. -/
def smallBookId : Expr := .binary .less (.columnRef "Book" "id") (.literal none 205000)
def orderOfCustomer : Expr := .binary .equals (.columnRef "Customer" "id") (.columnRef "Orders" "customer_id")

/-- What `init_SQL` makes of the clauses below, with the join list of each. -/
def booksOfCustomersQuery (Join : List JoinCell) : Query where
  fromTable := ["Book", "Orders", "Customer"]
  selectAttr := ["Book.title", "Customer.name"]
  allAttr := ["Book.id", "Book.title", "Customer.id", "Customer.name", "Orders.book_id", "Orders.customer_id"]
  predicate := [condLt "Book" "id" 205000]
  join := Join

/-- The two joins as the second and the third clause list them. -/
def bookThenCustomer : List JoinCell :=
  [⟨"Book", "id", "Orders", "book_id"⟩, ⟨"Customer", "id", "Orders", "customer_id"⟩]
def customerThenBook : List JoinCell :=
  [⟨"Customer", "id", "Orders", "customer_id"⟩, ⟨"Book", "id", "Orders", "book_id"⟩]

theorem bookThenCustomer_start : StartsAtEnd bookThenCustomer :=
  ⟨bookOrdersCustomer.join, ⟨bookOrdersCustomer_path.toChain, .of_eq (by
    simp [bookOrdersCustomer, bookThenCustomer, JoinCell.edge, Sym2.eq_swap])⟩, rfl⟩

theorem customerThenBook_start : StartsAtEnd customerThenBook := by
  have hturned : Path (turned bookOrdersCustomer.join) customerThenBook :=
    ⟨bookOrdersCustomer_path.toChain.turn, .of_eq (by
      simp [turned, bookOrdersCustomer, customerThenBook, JoinCell.swap, JoinCell.edge, Sym2.eq_swap])⟩
  exact ⟨_, hturned, rfl⟩

/-- Books are joined with customers through one fragment of each vertically fragmented table. -/
theorem booksOfCustomers_otherEnd :
    OtherEnd getMetadata (booksOfCustomersQuery bookOrdersCustomer.join) (booksOfCustomersQuery customerThenBook) where
  known := ⟨by decide, by decide, fun T hT _ => getMetadata_named T hT, by decide, by decide, by decide, by decide⟩
  joined := by decide
  fnames := by decide
  kind := by decide
  once := by
    have hall : ∀ r ∈ [booksOfCustomersQuery bookOrdersCustomer.join, booksOfCustomersQuery customerThenBook],
        ((planJoins getMetadata r).all fun p => ∀ n ∈ p.scan.tr, n.type ≠ .join) = true := by decide +kernel
    intro r hr p hp x c _ _ n hn
    have hrun := hall r hr
    rw [hp, Option.all_some, decide_eq_true_eq] at hrun
    exact hrun n (List.mem_of_getElem? hn)
  columns := by
    have hall : ((planJoins getMetadata (booksOfCustomersQuery bookOrdersCustomer.join)).all fun p =>
        Matched getMetadata (booksOfCustomersQuery bookOrdersCustomer.join) p) = true := by decide +kernel
    refine .inl fun p hp => ?_
    rwa [hp, Option.all_some, decide_eq_true_eq] at hall

theorem booksOfCustomers_fit (r : Query)
    (hr : r ∈ [booksOfCustomersQuery bookOrdersCustomer.join, booksOfCustomersQuery customerThenBook]) :
    PatternsFit getMetadata r := by
  have hall : ∀ r ∈ [booksOfCustomersQuery bookOrdersCustomer.join, booksOfCustomersQuery customerThenBook],
      ((planJoins getMetadata r).all fun p => p.scan.tr ≠ [] ∧ p.joinList.length ≤ 300) = true := by decide +kernel
  intro p hp
  have hrun := hall r hr
  rw [hp, Option.all_some, decide_eq_true_eq] at hrun
  exact ⟨hrun.1, fun site _ => ((planJoins_planned hp).joinSite_length site).trans hrun.2⟩

end EasyDDB.Optimizer
