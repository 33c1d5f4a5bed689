import Multicorn.Planner.Limit

/-! Parameterized paths: the keys a wrapper declares, and the join clauses found for them. -/
namespace Multicorn.Planner
open Multicorn.Catalog (Oid)

/-- `rinfo_serial` is what `equal` tells clauses apart by; `outer_relids` is empty unless the
clause belongs to an outer join. -/
structure RestrictInfo where
  rinfo_serial : ℕ
  clause : Expr
  outer_relids : Finset ℕ

/-- An equivalence class with the clauses it was made from. -/
structure JoinClass extends EquivalenceClass where
  ec_sources : List RestrictInfo
  ec_relids : Finset ℕ
  sources_relids : ∀ ri ∈ ec_sources, ∀ v ∈ pullVarClause ri.clause, v.varno ∈ ec_relids

structure PlannerInfo where
  eq_classes : List JoinClass
  left_join_clauses : List RestrictInfo
  right_join_clauses : List RestrictInfo

/-- One element of what `get_path_keys` returns. -/
structure PathKeyDecl where
  keys : List (Option String)
  rows : ℤ
  deriving DecidableEq

/-- How an integer becomes a `Datum` by way of a `double`. The platform decides about values
that do not fit. -/
structure DoubleToDatum where
  toDatum : ℤ → ℤ
  exact : ∀ n, 0 ≤ n → n < 2 ^ 53 → toDatum n = n

/-- The attribute number of the first live column called `name`. -/
def Relation.attnumOf (r : Relation) (name : String) : Option ℤ :=
  (r.desc.zipIdx.find? (fun p => !p.1.attisdropped && p.1.attname == name)).map
    fun p => (p.2 + 1 : ℤ)

def listAppendUnique (l : List ℤ) (n : ℤ) : List ℤ := if n ∈ l then l else l ++ [n]

/-- The attribute numbers of a key. Names of no column, and None, are left out. -/
def keyAttnums (r : Relation) (keys : List (Option String)) : List ℤ :=
  keys.foldl (fun attnums key =>
    match key.bind r.attnumOf with
    | some attnum => listAppendUnique attnums attnum
    | none => attnums) []

/-- `pathKeys`: the attribute numbers of each key with the constant made of its rows. -/
def pathKeys (D : DoubleToDatum) (r : Relation) (decls : List PathKeyDecl) :
    List (List ℤ × ℤ) :=
  decls.map fun decl => (keyAttnums r decl.keys, D.toDatum decl.rows)

def isAttrInRestrictInfo (relid : ℕ) (attno : ℤ) (restrictinfo : RestrictInfo) : Bool :=
  (pullVarClause restrictinfo.clause).any fun var => var.varno = relid && var.varattno = attno

def clausesInvolvingAttr (relid : ℕ) (attnum : ℤ) (ec : JoinClass) : List RestrictInfo :=
  if 1 < ec.ec_members.length then ec.ec_sources.filter (isAttrInRestrictInfo relid attnum) else []

/-- `list_union` of the outer join clauses. -/
def PlannerInfo.outerJoinClauses (root : PlannerInfo) : List RestrictInfo :=
  root.right_join_clauses.foldl (fun l ri =>
    if l.any (fun ri' => ri'.rinfo_serial = ri.rinfo_serial) then l else l ++ [ri])
    root.left_join_clauses

/-- The clauses found so far, and the relations on their other side. -/
structure Found where
  clauses : List RestrictInfo
  outer_relids : Finset ℕ

/-- The two inner loops of `findPaths`. -/
def findKey (root : PlannerInfo) (relid : ℕ) (attnum : ℤ) (outer_relids : Finset ℕ) : Found :=
  let found := root.eq_classes.foldl (fun found ec =>
    let ec_clauses := clausesInvolvingAttr relid attnum ec
    { clauses := found.clauses ++ ec_clauses
      outer_relids := if ec_clauses.isEmpty then found.outer_relids
        else found.outer_relids ∪ ec.ec_relids }) ⟨[], outer_relids⟩
  root.outerJoinClauses.foldl (fun found ri =>
    if isAttrInRestrictInfo relid attnum ri then
      ⟨found.clauses ++ [ri], found.outer_relids ∪ ri.outer_relids⟩
    else found) found

/-- The loop over the attribute numbers of a key; one without a clause ends it. -/
def findKeys (root : PlannerInfo) (relid : ℕ) : List ℤ → Found → Option Found
  | [], found => some found
  | attnum :: attrnos, ⟨allclauses, outer_relids⟩ =>
    let ⟨clauses, outer_relids⟩ := findKey root relid attnum outer_relids
    if clauses.isEmpty then none
    else findKeys root relid attrnos ⟨allclauses ++ clauses, outer_relids⟩

/-- A parameterized path. Its rows and costs are C integers made into doubles. -/
structure ParamPath where
  rows : ℤ
  startup_cost : ℤ
  total_cost : ℤ
  ppi_req_outer : Finset ℕ
  ppi_rows : ℤ
  ppi_clauses : List RestrictInfo

/-- The product of two C integers. -/
def intMul (a b : ℤ) : ℤ := (a * b).bmod (2 ^ 32)

/-- One round of the outer loop of `findPaths`. -/
def findPath (root : PlannerInfo) (relid : ℕ) (width startupCost : ℤ) (item : List ℤ × ℤ) :
    Option ParamPath :=
  let nbrows := datumGetInt32 item.2
  match findKeys root relid item.1 ⟨[], ∅⟩ with
  | none => none
  | some ⟨allclauses, outer_relids⟩ =>
    let req_outer := outer_relids \ {relid}
    if allclauses.isEmpty then none
    else if req_outer = ∅ then none
    else some ⟨nbrows, startupCost, intMul nbrows width, req_outer, nbrows, allclauses⟩

def findPaths (root : PlannerInfo) (relid : ℕ) (width startupCost : ℤ)
    (possiblePaths : List (List ℤ × ℤ)) : List ParamPath :=
  possiblePaths.filterMap (findPath root relid width startupCost)

variable {root : PlannerInfo} {r : Relation} {relid : ℕ} {attnum : ℤ}

/-! The attribute numbers of a key. -/

theorem mem_listAppendUnique {l : List ℤ} {n m : ℤ} : m ∈ listAppendUnique l n ↔ m ∈ l ∨ m = n := by
  unfold listAppendUnique
  split_ifs with h
  · constructor
    · exact .inl
    · intro hm
      rcases hm with hm | hm
      · exact hm
      · exact hm ▸ h
  · simp

/-- Every column named in a key is looked for. -/
theorem mem_keyAttnums {keys : List (Option String)} :
    attnum ∈ keyAttnums r keys ↔ ∃ name, some name ∈ keys ∧ r.attnumOf name = some attnum := by
  have hloop : ∀ acc : List ℤ, attnum ∈ keys.foldl (fun attnums key =>
      match key.bind r.attnumOf with
      | some attnum => listAppendUnique attnums attnum
      | none => attnums) acc ↔
      attnum ∈ acc ∨ ∃ name, some name ∈ keys ∧ r.attnumOf name = some attnum := by
    induction keys with
    | nil => simp
    | cons key keys ih =>
      intro acc
      rw [List.foldl_cons, ih]
      cases hkey : key.bind r.attnumOf with
      | none =>
        have hother : ∀ name, some name = key → r.attnumOf name ≠ some attnum := by
          intro name hname h
          rw [← hname, Option.bind_some, h] at hkey
          cases hkey
        constructor
        · intro h
          rcases h with h | h
          · exact .inl h
          · obtain ⟨name, hmem, hname⟩ := h
            exact .inr ⟨name, List.mem_cons_of_mem key hmem, hname⟩
        · intro h
          rcases h with h | h
          · exact .inl h
          · obtain ⟨name, hmem, hname⟩ := h
            rcases List.mem_cons.mp hmem with heq | hmem
            · exact absurd hname (hother name heq)
            · exact .inr ⟨name, hmem, hname⟩
      | some n =>
        obtain ⟨name₀, hkey₀, hname₀⟩ := Option.bind_eq_some_iff.mp hkey
        rw [mem_listAppendUnique]
        constructor
        · intro h
          rcases h with (h | h) | h
          · exact .inl h
          · exact .inr ⟨name₀, hkey₀ ▸ List.mem_cons_self, h ▸ hname₀⟩
          · obtain ⟨name, hmem, hname⟩ := h
            exact .inr ⟨name, List.mem_cons_of_mem key hmem, hname⟩
        · intro h
          rcases h with h | h
          · exact .inl (.inl h)
          · obtain ⟨name, hmem, hname⟩ := h
            rcases List.mem_cons.mp hmem with heq | hmem
            · rw [← heq, Option.bind_some, hname] at hkey
              exact .inl (.inr (Option.some.inj hkey))
            · exact .inr ⟨name, hmem, hname⟩
  rw [keyAttnums, hloop]
  simp

/-! What is found for one attribute number. -/

theorem isAttrInRestrictInfo_eq_true {ri : RestrictInfo} :
    isAttrInRestrictInfo relid attnum ri = true ↔
      ∃ v ∈ pullVarClause ri.clause, v.varno = relid ∧ v.varattno = attnum := by
  simp [isAttrInRestrictInfo]

theorem mem_clausesInvolvingAttr {ec : JoinClass} {ri : RestrictInfo}
    (h : ri ∈ clausesInvolvingAttr relid attnum ec) :
    ri ∈ ec.ec_sources ∧ isAttrInRestrictInfo relid attnum ri = true := by
  unfold clausesInvolvingAttr at h
  split_ifs at h
  · exact List.mem_filter.mp h
  · cases h

/-- `ri` is one of the clauses for the attribute. -/
def ClauseFor (root : PlannerInfo) (relid : ℕ) (attnum : ℤ) (ri : RestrictInfo) : Prop :=
  (∃ ec ∈ root.eq_classes, ri ∈ clausesInvolvingAttr relid attnum ec) ∨
    (ri ∈ root.outerJoinClauses ∧ isAttrInRestrictInfo relid attnum ri = true)

/-- A clause for the attribute comes with the relation `x`. -/
def RequiredFor (root : PlannerInfo) (relid : ℕ) (attnum : ℤ) (x : ℕ) : Prop :=
  (∃ ec ∈ root.eq_classes, clausesInvolvingAttr relid attnum ec ≠ [] ∧ x ∈ ec.ec_relids) ∨
    ∃ ri ∈ root.outerJoinClauses, isAttrInRestrictInfo relid attnum ri = true ∧ x ∈ ri.outer_relids

theorem findClasses_spec (classes : List JoinClass) (found : Found) :
    let found' := classes.foldl (fun found ec =>
      let ec_clauses := clausesInvolvingAttr relid attnum ec
      { clauses := found.clauses ++ ec_clauses
        outer_relids := if ec_clauses.isEmpty then found.outer_relids
          else found.outer_relids ∪ ec.ec_relids : Found }) found
    (∀ ri, ri ∈ found'.clauses ↔
      ri ∈ found.clauses ∨ ∃ ec ∈ classes, ri ∈ clausesInvolvingAttr relid attnum ec) ∧
    ∀ x, x ∈ found'.outer_relids ↔ x ∈ found.outer_relids ∨
      ∃ ec ∈ classes, clausesInvolvingAttr relid attnum ec ≠ [] ∧ x ∈ ec.ec_relids := by
  induction classes generalizing found with
  | nil => simp
  | cons ec classes ih =>
    obtain ⟨hclauses, hrelids⟩ := ih ⟨found.clauses ++ clausesInvolvingAttr relid attnum ec,
      if (clausesInvolvingAttr relid attnum ec).isEmpty then found.outer_relids
        else found.outer_relids ∪ ec.ec_relids⟩
    constructor
    · intro ri
      rw [List.foldl_cons, hclauses]
      simp only [List.mem_append, List.mem_cons, exists_eq_or_imp, or_assoc]
    · intro x
      rw [List.foldl_cons, hrelids]
      by_cases hempty : clausesInvolvingAttr relid attnum ec = []
      · simp [hempty]
      · simp [hempty, or_assoc]

theorem findOuterJoins_spec (clauses : List RestrictInfo) (found : Found) :
    let found' := clauses.foldl (fun found ri =>
      if isAttrInRestrictInfo relid attnum ri then
        (⟨found.clauses ++ [ri], found.outer_relids ∪ ri.outer_relids⟩ : Found)
      else found) found
    (∀ ri, ri ∈ found'.clauses ↔
      ri ∈ found.clauses ∨ (ri ∈ clauses ∧ isAttrInRestrictInfo relid attnum ri = true)) ∧
    ∀ x, x ∈ found'.outer_relids ↔ x ∈ found.outer_relids ∨
      ∃ ri ∈ clauses, isAttrInRestrictInfo relid attnum ri = true ∧ x ∈ ri.outer_relids := by
  induction clauses generalizing found with
  | nil => simp
  | cons ri clauses ih =>
    by_cases hattr : isAttrInRestrictInfo relid attnum ri = true
    · obtain ⟨hclauses, hrelids⟩ := ih ⟨found.clauses ++ [ri], found.outer_relids ∪ ri.outer_relids⟩
      constructor
      · intro ri'
        rw [List.foldl_cons, if_pos hattr, hclauses, List.mem_append, List.mem_singleton,
          List.mem_cons, or_assoc]
        by_cases heq : ri' = ri
        · subst heq
          simp [hattr]
        · simp [heq]
      · intro x
        rw [List.foldl_cons, if_pos hattr, hrelids]
        simp [hattr, or_assoc]
    · obtain ⟨hclauses, hrelids⟩ := ih found
      constructor
      · intro ri'
        rw [List.foldl_cons, if_neg hattr, hclauses, List.mem_cons]
        by_cases heq : ri' = ri
        · subst heq
          simp [hattr]
        · simp [heq]
      · intro x
        rw [List.foldl_cons, if_neg hattr, hrelids]
        simp [hattr]

theorem mem_findKey {outer_relids : Finset ℕ} {ri : RestrictInfo} :
    ri ∈ (findKey root relid attnum outer_relids).clauses ↔ ClauseFor root relid attnum ri := by
  unfold findKey ClauseFor
  rw [(findOuterJoins_spec _ _).1, (findClasses_spec _ _).1]
  simp

theorem mem_findKey_relids {outer_relids : Finset ℕ} {x : ℕ} :
    x ∈ (findKey root relid attnum outer_relids).outer_relids ↔
      x ∈ outer_relids ∨ RequiredFor root relid attnum x := by
  unfold findKey RequiredFor
  rw [(findOuterJoins_spec _ _).2, (findClasses_spec _ _).2, or_assoc]

/-- What a search that finds something for every attribute number ends with. -/
theorem findKeys_spec {attrnos : List ℤ} {found found' : Found}
    (h : findKeys root relid attrnos found = some found') :
    (∀ attnum ∈ attrnos, ∃ ri ∈ found'.clauses, ClauseFor root relid attnum ri) ∧
    (∀ ri, ri ∈ found'.clauses ↔
      ri ∈ found.clauses ∨ ∃ attnum ∈ attrnos, ClauseFor root relid attnum ri) ∧
    ∀ x, x ∈ found'.outer_relids ↔
      x ∈ found.outer_relids ∨ ∃ attnum ∈ attrnos, RequiredFor root relid attnum x := by
  induction attrnos generalizing found with
  | nil =>
    obtain rfl := Option.some.inj h
    simp
  | cons attnum attrnos ih =>
    unfold findKeys at h
    dsimp only at h
    split_ifs at h with hempty
    obtain ⟨hall, hclauses, hrelids⟩ := ih h
    have hmem : ∀ ri, ri ∈ found'.clauses ↔ ri ∈ found.clauses ∨
        ∃ attnum' ∈ attnum :: attrnos, ClauseFor root relid attnum' ri := by
      intro ri
      rw [hclauses, List.mem_append, mem_findKey]
      simp only [List.mem_cons, exists_eq_or_imp, or_assoc]
    refine ⟨?_, hmem, ?_⟩
    · intro attnum' hattnum
      rcases List.mem_cons.mp hattnum with heq | hattnum
      · obtain ⟨ri, hri⟩ := List.exists_mem_of_ne_nil _ (by simpa using hempty)
        have hfor := mem_findKey.mp hri
        exact ⟨ri, (hmem ri).mpr (.inr ⟨attnum, List.mem_cons_self, hfor⟩), heq ▸ hfor⟩
      · exact hall attnum' hattnum
    · intro x
      rw [hrelids, mem_findKey_relids]
      simp only [List.mem_cons, exists_eq_or_imp, or_assoc]

/-! Whole paths. -/

variable {width startupCost : ℤ} {item : List ℤ × ℤ} {path : ParamPath}

theorem findPath_spec (h : findPath root relid width startupCost item = some path) :
    (∀ attnum ∈ item.1, ∃ ri ∈ path.ppi_clauses, ClauseFor root relid attnum ri) ∧
    (∀ ri, ri ∈ path.ppi_clauses ↔ ∃ attnum ∈ item.1, ClauseFor root relid attnum ri) ∧
    ∀ x, x ∈ path.ppi_req_outer ↔ (∃ attnum ∈ item.1, RequiredFor root relid attnum x) ∧ x ≠ relid := by
  unfold findPath at h
  dsimp only at h
  cases hfound : findKeys root relid item.1 ⟨[], ∅⟩ with
  | none =>
    rw [hfound] at h
    cases h
  | some found =>
    rw [hfound] at h
    dsimp only at h
    split_ifs at h
    obtain rfl := Option.some.inj h
    obtain ⟨hall, hclauses, hrelids⟩ := findKeys_spec hfound
    refine ⟨hall, ?_, ?_⟩
    · intro ri
      change ri ∈ found.clauses ↔ _
      rw [hclauses]
      simp
    · intro x
      change x ∈ found.outer_relids \ {relid} ↔ _
      rw [Finset.mem_sdiff, Finset.mem_singleton, hrelids]
      simp

theorem ClauseFor.attr {ri : RestrictInfo} (h : ClauseFor root relid attnum ri) :
    ∃ v ∈ pullVarClause ri.clause, v.varno = relid ∧ v.varattno = attnum := by
  rcases h with ⟨ec, _, hri⟩ | ⟨_, hri⟩
  · exact isAttrInRestrictInfo_eq_true.mp (mem_clausesInvolvingAttr hri).2
  · exact isAttrInRestrictInfo_eq_true.mp hri

/-- For every column named in the key there is a clause with the column in it. -/
def Selective (r : Relation) (relid : ℕ) (keys : List (Option String)) (path : ParamPath) : Prop :=
  ∀ name attnum, some name ∈ keys → r.attnumOf name = some attnum →
    ∃ ri ∈ path.ppi_clauses, ∃ v ∈ pullVarClause ri.clause, v.varno = relid ∧ v.varattno = attnum

/-- The clauses mention only the relation itself and the required ones. -/
def Executable (relid : ℕ) (path : ParamPath) : Prop :=
  ∀ ri ∈ path.ppi_clauses, ∀ v ∈ pullVarClause ri.clause,
    v.varno = relid ∨ v.varno ∈ path.ppi_req_outer

/-- An outer join clause on a column of the key mentions on its inner side only the relation
itself and relations that a clause of the key comes with. -/
def InnerSidesCovered (root : PlannerInfo) (relid : ℕ) (attrnos : List ℤ) : Prop :=
  ∀ attnum ∈ attrnos, ∀ ri ∈ root.outerJoinClauses, isAttrInRestrictInfo relid attnum ri = true →
    ∀ v ∈ pullVarClause ri.clause, v.varno ∉ ri.outer_relids →
      v.varno = relid ∨ ∃ attnum' ∈ attrnos, RequiredFor root relid attnum' v.varno

/-- A path is as selective as the declared key, and it can be executed just when the outer
join clauses it takes have their inner sides covered. -/
theorem findPath_executable_iff {keys : List (Option String)} {rows : ℤ}
    (h : findPath root relid width startupCost (keyAttnums r keys, rows) = some path) :
    Selective r relid keys path ∧ Executable relid path ↔
      InnerSidesCovered root relid (keyAttnums r keys) := by
  obtain ⟨hall, hclauses, hrelids⟩ := findPath_spec h
  have hselective : Selective r relid keys path := by
    intro name attnum hname hattnum
    obtain ⟨ri, hri, hfor⟩ := hall attnum (mem_keyAttnums.mpr ⟨name, hname, hattnum⟩)
    exact ⟨ri, hri, hfor.attr⟩
  have hcover : ∀ x, (∃ attnum ∈ keyAttnums r keys, RequiredFor root relid attnum x) →
      x = relid ∨ x ∈ path.ppi_req_outer := by
    intro x hx
    by_cases heq : x = relid
    · exact .inl heq
    · exact .inr ((hrelids x).mpr ⟨hx, heq⟩)
  constructor
  · intro hpath attnum hattnum ri hri hattr v hv _
    have hmem : ri ∈ path.ppi_clauses := (hclauses ri).mpr ⟨attnum, hattnum, .inr ⟨hri, hattr⟩⟩
    rcases hpath.2 ri hmem v hv with heq | hreq
    · exact .inl heq
    · exact .inr ((hrelids v.varno).mp hreq).1
  · intro hinner
    refine ⟨hselective, ?_⟩
    intro ri hri v hv
    obtain ⟨attnum, hattnum, hfor⟩ := (hclauses ri).mp hri
    rcases hfor with ⟨ec, hec, hsource⟩ | ⟨houter, hattr⟩
    · have hne : clausesInvolvingAttr relid attnum ec ≠ [] := List.ne_nil_of_mem hsource
      have hin := ec.sources_relids ri (mem_clausesInvolvingAttr hsource).1 v hv
      exact hcover v.varno ⟨attnum, hattnum, .inl ⟨ec, hec, hne, hin⟩⟩
    · by_cases hside : v.varno ∈ ri.outer_relids
      · exact hcover v.varno ⟨attnum, hattnum, .inr ⟨ri, houter, hattr, hside⟩⟩
      · rcases hinner attnum hattnum ri houter hattr v hv hside with heq | hreq
        · exact .inl heq
        · exact hcover v.varno hreq

/-- Every path is built for a declared key: it is as selective as declared and can be
executed just when the outer join clauses of the key have their inner sides covered. -/
theorem findPaths_executable_iff {D : DoubleToDatum} {decls : List PathKeyDecl}
    (h : path ∈ findPaths root relid width startupCost (pathKeys D r decls)) :
    ∃ decl ∈ decls,
      findPath root relid width startupCost (keyAttnums r decl.keys, D.toDatum decl.rows) =
        some path ∧
      (Selective r relid decl.keys path ∧ Executable relid path ↔
        InnerSidesCovered root relid (keyAttnums r decl.keys)) := by
  obtain ⟨item, hitem, hpath⟩ := List.mem_filterMap.mp h
  obtain ⟨decl, hdecl, heq⟩ := List.mem_map.mp hitem
  subst heq
  exact ⟨decl, hdecl, hpath, findPath_executable_iff hpath⟩

section Sample

def column (varno : ℕ) (varattno : ℤ) : Expr := .var ⟨varno, varattno, int4Oid, .invalid⟩

/-- `varno.varattno = varno'.varattno'`, of an outer join where there are `outer_relids`. -/
def equalityClause (serial varno : ℕ) (varattno : ℤ) (varno' : ℕ) (varattno' : ℤ)
    (outer_relids : Finset ℕ) : RestrictInfo :=
  ⟨serial, .opExpr 96 boolOid .invalid [column varno varattno, column varno' varattno'], outer_relids⟩

/-- `t1.b = t3.a`. -/
def innerJoin : JoinClass where
  ec_members := [⟨{1}, column 1 2⟩, ⟨{3}, column 3 1⟩]
  ec_collation := .invalid
  canonical em hem c hc := by
    simp only [List.mem_cons, List.not_mem_nil, or_false] at hem
    rcases hem with rfl | rfl <;> exact (Option.some.inj hc).symm
  ec_sources := [equalityClause 1 1 2 3 1 ∅]
  ec_relids := {1, 3}
  sources_relids := by decide

/-- The double of an integer below 2^53 is exact; others are taken modulo 2^64. -/
def wrappingDouble : DoubleToDatum where
  toDatum n := n % 2 ^ 64
  exact n h h' := Int.emod_eq_of_lt h (by omega)

/-- `t1 JOIN t3 ON t1.b = t3.a`, with a key on `b`. -/
theorem innerJoin_executable :
    ∃ path ∈ findPaths ⟨[innerJoin], [], []⟩ 1 8 10
        (pathKeys wrappingDouble twoColumns [⟨[some "b"], 5⟩]),
      Selective twoColumns 1 [some "b"] path ∧ Executable 1 path := by
  have hpaths : findPaths ⟨[innerJoin], [], []⟩ 1 8 10
      (pathKeys wrappingDouble twoColumns [⟨[some "b"], 5⟩]) =
        [⟨5, 10, 40, {3}, 5, [equalityClause 1 1 2 3 1 ∅]⟩] := rfl
  have hmem : (⟨5, 10, 40, {3}, 5, [equalityClause 1 1 2 3 1 ∅]⟩ : ParamPath) ∈
      findPaths ⟨[innerJoin], [], []⟩ 1 8 10
        (pathKeys wrappingDouble twoColumns [⟨[some "b"], 5⟩]) := by
    rw [hpaths]
    exact List.mem_singleton_self _
  obtain ⟨decl, hdecl, -, hiff⟩ := findPaths_executable_iff hmem
  obtain rfl := List.mem_singleton.mp hdecl
  refine ⟨_, hmem, hiff.mpr ?_⟩
  intro attnum _ ri hri
  cases hri

/-- `t1 LEFT JOIN t2 ON t1.a = t2.a JOIN t3 ON t1.b = t3.a`, with a key on `a` and `b`: the
path takes the outer join clause but does not require `t2`. -/
theorem leftJoin_not_executable :
    ∃ path ∈ findPaths ⟨[innerJoin], [equalityClause 2 1 1 2 1 {1}], []⟩ 1 8 10
        (pathKeys wrappingDouble twoColumns [⟨[some "a", some "b"], 5⟩]),
      ¬ Executable 1 path := by
  refine ⟨⟨5, 10, 40, {3}, 5, [equalityClause 2 1 1 2 1 {1}, equalityClause 1 1 2 3 1 ∅]⟩, ?_, ?_⟩
  · have hpaths : findPaths ⟨[innerJoin], [equalityClause 2 1 1 2 1 {1}], []⟩ 1 8 10
        (pathKeys wrappingDouble twoColumns [⟨[some "a", some "b"], 5⟩]) =
          [⟨5, 10, 40, {3}, 5, [equalityClause 2 1 1 2 1 {1}, equalityClause 1 1 2 3 1 ∅]⟩] := rfl
    rw [hpaths]
    exact List.mem_singleton_self _
  · intro h
    have hvar := h (equalityClause 2 1 1 2 1 {1}) List.mem_cons_self ⟨2, 1, int4Oid, .invalid⟩
      (by decide)
    revert hvar
    decide

end Sample

end Multicorn.Planner
