import Mathlib.Algebra.Order.Ring.Int
import Multicorn.Planner.LimitPushdown
import Multicorn.Planner.ParamPaths

/-! Rows and costs of the paths: C integers, whose products wrap around. -/
namespace Multicorn.Planner

/-- The rows and the total cost a path is created with. -/
structure Estimate where
  rows : ℤ
  total_cost : ℤ
  deriving DecidableEq

/-- The path that `add_foreign_final_paths` adds, with its rows and cost. -/
def finalPath (canLimit : ℤ → ℤ → Bool) (q : SelectQuery) (width : ℤ)
    (fdw_private : Option MulticornPlanState) : Option (ForeignPath × Estimate) := do
  let path ← addForeignFinalPaths canLimit q fdw_private
  let limitCount ← pushedCount q.limitCount
  return (path, ⟨limitCount, intMul limitCount width⟩)

/-! Products of C integers. -/

/-- The low word of a product. -/
def lowWord (a b : ℤ) : ℤ := a * b % 2 ^ 32

theorem intMul_of_low {a b : ℤ} (h : lowWord a b < 2 ^ 31) : intMul a b = lowWord a b := by
  unfold lowWord at h ⊢
  rw [intMul, Int.bmod_def]
  have hnonneg : 0 ≤ a * b % 2 ^ 32 := Int.emod_nonneg _ (by decide)
  omega

theorem intMul_nonneg_iff {a b : ℤ} : 0 ≤ intMul a b ↔ lowWord a b < 2 ^ 31 := by
  constructor
  · intro h
    rw [intMul, Int.bmod_def] at h
    unfold lowWord
    have hlt : a * b % 2 ^ 32 < 2 ^ 32 := Int.emod_lt_of_pos _ (by decide)
    omega
  · intro h
    rw [intMul_of_low h]
    exact Int.emod_nonneg _ (by decide)

theorem lowWord_of_small {a b : ℤ} (h₀ : 0 ≤ a * b) (h : a * b < 2 ^ 31) : lowWord a b = a * b :=
  Int.emod_eq_of_lt h₀ (by omega)

/-! The parameterized paths. -/

variable {root : PlannerInfo} {r : Relation} {relid : ℕ} {D : DoubleToDatum}
  {width startupCost : ℤ}

/-- The path built for a declared key. -/
def pathOf (root : PlannerInfo) (r : Relation) (relid : ℕ) (D : DoubleToDatum)
    (width startupCost : ℤ) (decl : PathKeyDecl) : Option ParamPath :=
  findPath root relid width startupCost (keyAttnums r decl.keys, D.toDatum decl.rows)

theorem findPaths_eq (decls : List PathKeyDecl) :
    findPaths root relid width startupCost (pathKeys D r decls) =
      decls.filterMap (pathOf root r relid D width startupCost) := by
  rw [findPaths, pathKeys, List.filterMap_map]
  rfl

theorem estimate_of_path {decl : PathKeyDecl} {path : ParamPath}
    (h : pathOf root r relid D width startupCost decl = some path) :
    path.rows = datumGetInt32 (D.toDatum decl.rows) ∧
      path.total_cost = intMul (datumGetInt32 (D.toDatum decl.rows)) width := by
  unfold pathOf findPath at h
  dsimp only at h
  cases hfound : findKeys root relid (keyAttnums r decl.keys) ⟨[], ∅⟩ with
  | none =>
    rw [hfound] at h
    cases h
  | some found =>
    rw [hfound] at h
    dsimp only at h
    split_ifs at h
    obtain rfl := Option.some.inj h
    exact ⟨rfl, rfl⟩

theorem nbrows_eq_iff {rows : ℤ} (h : 0 ≤ rows) :
    datumGetInt32 (D.toDatum rows) = rows ↔ rows < 2 ^ 31 := by
  constructor
  · intro heq
    rw [← heq]
    exact datumGetInt32_lt _
  · intro hlt
    rw [D.exact rows h (by omega), datumGetInt32_of_small h hlt]

/-- The paths of the keys have the declared rows, no negative cost, and do not get cheaper
with more rows. -/
def KeyEstimatesSound (pathOf : PathKeyDecl → Option ParamPath) (decls : List PathKeyDecl) : Prop :=
  (∀ decl ∈ decls, ∀ path, pathOf decl = some path →
    0 ≤ path.rows ∧ path.rows = decl.rows ∧ 0 ≤ path.total_cost) ∧
  ∀ decl ∈ decls, ∀ decl' ∈ decls, ∀ path path', pathOf decl = some path →
    pathOf decl' = some path' → decl.rows < decl'.rows → path.total_cost ≤ path'.total_cost

/-- The rows of the keys that get a path fit, and so do the low words of their products with
the width, which grow with the rows. -/
def KeyEstimatesFit (pathOf : PathKeyDecl → Option ParamPath) (decls : List PathKeyDecl)
    (width : ℤ) : Prop :=
  (∀ decl ∈ decls, (pathOf decl).isSome → decl.rows < 2 ^ 31 ∧ lowWord decl.rows width < 2 ^ 31) ∧
  ∀ decl ∈ decls, ∀ decl' ∈ decls, (pathOf decl).isSome → (pathOf decl').isSome →
    decl.rows < decl'.rows → lowWord decl.rows width ≤ lowWord decl'.rows width

theorem keyEstimates_sound_iff {decls : List PathKeyDecl} (hrows : ∀ decl ∈ decls, 0 ≤ decl.rows) :
    KeyEstimatesSound (pathOf root r relid D width startupCost) decls ↔
      KeyEstimatesFit (pathOf root r relid D width startupCost) decls width := by
  have hfit : ∀ decl ∈ decls, ∀ path, pathOf root r relid D width startupCost decl = some path →
      (0 ≤ path.rows ∧ path.rows = decl.rows ∧ 0 ≤ path.total_cost ↔
        decl.rows < 2 ^ 31 ∧ lowWord decl.rows width < 2 ^ 31) := by
    intro decl hdecl path hpath
    obtain ⟨hr, hc⟩ := estimate_of_path hpath
    have hnonneg := hrows decl hdecl
    rw [hr, hc]
    constructor
    · intro h
      obtain ⟨-, heq, hcost⟩ := h
      rw [heq] at hcost
      exact ⟨(nbrows_eq_iff hnonneg).mp heq, intMul_nonneg_iff.mp hcost⟩
    · intro h
      obtain ⟨hlt, hlow⟩ := h
      rw [(nbrows_eq_iff hnonneg).mpr hlt]
      exact ⟨hnonneg, rfl, intMul_nonneg_iff.mpr hlow⟩
  have hcost : ∀ decl ∈ decls, ∀ path, pathOf root r relid D width startupCost decl = some path →
      decl.rows < 2 ^ 31 → lowWord decl.rows width < 2 ^ 31 →
        path.total_cost = lowWord decl.rows width := by
    intro decl hdecl path hpath hlt hlow
    rw [(estimate_of_path hpath).2, (nbrows_eq_iff (hrows decl hdecl)).mpr hlt, intMul_of_low hlow]
  constructor
  · intro h
    obtain ⟨heach, hmono⟩ := h
    have hsmall : ∀ decl ∈ decls, (pathOf root r relid D width startupCost decl).isSome →
        decl.rows < 2 ^ 31 ∧ lowWord decl.rows width < 2 ^ 31 := by
      intro decl hdecl hsome
      obtain ⟨path, hpath⟩ := Option.isSome_iff_exists.mp hsome
      exact (hfit decl hdecl path hpath).mp (heach decl hdecl path hpath)
    refine ⟨hsmall, ?_⟩
    intro decl hdecl decl' hdecl' hsome hsome' hlt
    obtain ⟨hr, hlow⟩ := hsmall decl hdecl hsome
    obtain ⟨hr', hlow'⟩ := hsmall decl' hdecl' hsome'
    obtain ⟨path, hpath⟩ := Option.isSome_iff_exists.mp hsome
    obtain ⟨path', hpath'⟩ := Option.isSome_iff_exists.mp hsome'
    have hle := hmono decl hdecl decl' hdecl' path path' hpath hpath' hlt
    rwa [hcost decl hdecl path hpath hr hlow, hcost decl' hdecl' path' hpath' hr' hlow'] at hle
  · intro h
    obtain ⟨hsmall, hmono⟩ := h
    constructor
    · intro decl hdecl path hpath
      exact (hfit decl hdecl path hpath).mpr (hsmall decl hdecl (by rw [hpath]; rfl))
    · intro decl hdecl decl' hdecl' path path' hpath hpath' hlt
      obtain ⟨hr, hlow⟩ := hsmall decl hdecl (by rw [hpath]; rfl)
      obtain ⟨hr', hlow'⟩ := hsmall decl' hdecl' (by rw [hpath']; rfl)
      rw [hcost decl hdecl path hpath hr hlow, hcost decl' hdecl' path' hpath' hr' hlow']
      exact hmono decl hdecl decl' hdecl' (by rw [hpath]; rfl) (by rw [hpath']; rfl) hlt

/-! The path with the LIMIT. -/

variable {canLimit : ℤ → ℤ → Bool} {q : SelectQuery} {fdw_private : Option MulticornPlanState}

/-- The path with the limit has no negative rows and cost, and the rows of the LIMIT if there
is one. -/
def FinalEstimateSound (q : SelectQuery) (final : Option (ForeignPath × Estimate)) : Prop :=
  ∀ path estimate, final = some (path, estimate) →
    0 ≤ estimate.rows ∧ 0 ≤ estimate.total_cost ∧
      ∀ n, constCount q.limitCount = some n → estimate.rows = n

/-- Where the path is added there is a LIMIT, and it fits together with its product. -/
def FinalEstimateFits (q : SelectQuery) (width : ℤ) (final : Option (ForeignPath × Estimate)) :
    Prop :=
  final.isSome → ∃ n, constCount q.limitCount = some n ∧ n < 2 ^ 31 ∧ lowWord n width < 2 ^ 31

theorem finalPath_eq_some {path : ForeignPath} {estimate : Estimate}
    (h : finalPath canLimit q width fdw_private = some (path, estimate)) :
    ∃ limitCount, pushedCount q.limitCount = some limitCount ∧
      estimate = ⟨limitCount, intMul limitCount width⟩ := by
  simp only [finalPath, Option.bind_eq_bind, Option.bind_eq_some_iff, pure, Option.some.injEq,
    Prod.mk.injEq] at h
  obtain ⟨_, _, limitCount, hcount, _, hestimate⟩ := h
  exact ⟨limitCount, hcount, hestimate.symm⟩

/-- A count that can be pushed is a constant, or there is none. -/
theorem pushedCount_eq_some {e : Option LimitExpr} {limitCount : ℤ}
    (h : pushedCount e = some limitCount) :
    (constCount e = none ∧ limitCount = -1) ∨
      ∃ n, constCount e = some n ∧ limitCount = datumGetInt32 n := by
  match e with
  | none => exact .inl ⟨rfl, (Option.some.inj h).symm⟩
  | some (.const (some n)) => exact .inr ⟨n, rfl, (Option.some.inj h).symm⟩
  | some (.const none) => cases h
  | some .other => cases h

theorem finalEstimate_sound_iff (hlimit : ∀ n, constCount q.limitCount = some n → 0 ≤ n) :
    FinalEstimateSound q (finalPath canLimit q width fdw_private) ↔
      FinalEstimateFits q width (finalPath canLimit q width fdw_private) := by
  constructor
  · intro h hsome
    obtain ⟨⟨path, estimate⟩, hfinal⟩ := Option.isSome_iff_exists.mp hsome
    obtain ⟨hrows, hcost, hlimit'⟩ := h path estimate hfinal
    obtain ⟨limitCount, hcount, hestimate⟩ := finalPath_eq_some hfinal
    subst hestimate
    rcases pushedCount_eq_some hcount with ⟨-, habsent⟩ | ⟨n, hn, hpushed⟩
    · change 0 ≤ limitCount at hrows
      omega
    · have heq : limitCount = n := hlimit' n hn
      have hlt := datumGetInt32_lt n
      rw [← hpushed, heq] at hlt
      change 0 ≤ intMul limitCount width at hcost
      rw [heq] at hcost
      exact ⟨n, hn, hlt, intMul_nonneg_iff.mp hcost⟩
  · intro h path estimate hfinal
    obtain ⟨n, hn, hlt, hlow⟩ := h (by rw [hfinal]; rfl)
    obtain ⟨limitCount, hcount, hestimate⟩ := finalPath_eq_some hfinal
    subst hestimate
    have hnonneg := hlimit n hn
    have heq : limitCount = n := by
      rcases pushedCount_eq_some hcount with ⟨habsent, -⟩ | ⟨n', hn', hpushed⟩
      · rw [hn] at habsent
        cases habsent
      · rw [hn] at hn'
        obtain rfl := Option.some.inj hn'
        rw [hpushed, datumGetInt32_of_small hnonneg hlt]
    subst heq
    refine ⟨hnonneg, intMul_nonneg_iff.mpr hlow, ?_⟩
    intro n' hn'
    rw [hn] at hn'
    exact Option.some.inj hn'

/-- The estimates given to the planner are right just when nothing wraps around and a limit
is not pushed without a LIMIT. -/
theorem estimates_sound_iff {decls : List PathKeyDecl} (hrows : ∀ decl ∈ decls, 0 ≤ decl.rows)
    (hlimit : ∀ n, constCount q.limitCount = some n → 0 ≤ n) :
    KeyEstimatesSound (pathOf root r relid D width startupCost) decls ∧
        FinalEstimateSound q (finalPath canLimit q width fdw_private) ↔
      KeyEstimatesFit (pathOf root r relid D width startupCost) decls width ∧
        FinalEstimateFits q width (finalPath canLimit q width fdw_private) := by
  rw [keyEstimates_sound_iff hrows, finalEstimate_sound_iff hlimit]

/-! What the filesystem wrapper declares. -/

/-- `get_path_keys` of `FilesystemFdw`: `folder_columns` is the first property of every part of
the pattern that has one. -/
def filesystemPathKeys (filename_column : Option String) (folder_columns : List String) :
    List PathKeyDecl :=
  ⟨[filename_column], 1⟩ :: (List.range' 1 folder_columns.length).map fun i =>
    ⟨(folder_columns.take i).map some, 100 ^ (folder_columns.length - i)⟩

/-- The width of its `get_rel_size`. -/
def filesystemWidth (content_column : Option String) (columns : List String) : ℤ :=
  columns.length * 30 + if content_column.any (· ∈ columns) then 1000000 else 0

theorem filesystemPathKeys_rows {filename_column : Option String} {folder_columns : List String} :
    ∀ decl ∈ filesystemPathKeys filename_column folder_columns,
      1 ≤ decl.rows ∧ decl.rows ≤ 100 ^ (folder_columns.length - 1) := by
  intro decl hdecl
  rcases List.mem_cons.mp hdecl with hhead | htail
  · subst hhead
    exact ⟨le_refl 1, one_le_pow₀ (by decide)⟩
  · obtain ⟨i, hi, heq⟩ := List.mem_map.mp htail
    subst heq
    have hi := (List.mem_range'_1.mp hi).1
    constructor
    · exact one_le_pow₀ (by decide)
    · exact pow_le_pow_right₀ (by decide) (by omega)

/-- Its estimates fit while the largest product does. -/
theorem filesystem_estimates_fit {filename_column : Option String} {folder_columns : List String}
    (hwidth : 0 ≤ width) (h : 100 ^ (folder_columns.length - 1) * width < 2 ^ 31)
    (hpow : (100 : ℤ) ^ (folder_columns.length - 1) < 2 ^ 31) :
    KeyEstimatesFit (pathOf root r relid D width startupCost)
      (filesystemPathKeys filename_column folder_columns) width := by
  have hlow : ∀ decl ∈ filesystemPathKeys filename_column folder_columns,
      decl.rows < 2 ^ 31 ∧ decl.rows * width < 2 ^ 31 ∧
        lowWord decl.rows width = decl.rows * width := by
    intro decl hdecl
    obtain ⟨hpos, hle⟩ := filesystemPathKeys_rows decl hdecl
    have hprod : decl.rows * width ≤ 100 ^ (folder_columns.length - 1) * width :=
      mul_le_mul_of_nonneg_right hle hwidth
    have hnonneg : 0 ≤ decl.rows * width := mul_nonneg (by omega) hwidth
    refine ⟨by omega, by omega, lowWord_of_small hnonneg (by omega)⟩
  constructor
  · intro decl hdecl _
    obtain ⟨hrows, hprod, hlow⟩ := hlow decl hdecl
    rw [hlow]
    exact ⟨hrows, hprod⟩
  · intro decl hdecl decl' hdecl' _ _ hlt
    rw [(hlow decl hdecl).2.2, (hlow decl' hdecl').2.2]
    exact mul_le_mul_of_nonneg_right (le_of_lt hlt) hwidth

section Sample

/-- A table for the pattern `{a}/{b}/{c}/{d}`. -/
def folderTable : Relation where
  desc := ["a", "b", "c", "d", "content", "filename"].map fun name => ⟨name, 25, -1, false, []⟩
  trigInsertAfterRow := false
  nodup := by decide
  notSystem := by
    intro att hatt n
    unfold systemAttribute
    obtain ⟨name, hname, rfl⟩ := List.mem_map.mp hatt
    simp only [List.mem_cons, List.not_mem_nil, or_false] at hname
    rcases hname with rfl | rfl | rfl | rfl | rfl | rfl <;> split <;> simp

/-- `t1.a = t2.a`. -/
def joinOnFolder : JoinClass where
  ec_members := [⟨{1}, column 1 1⟩, ⟨{2}, column 2 1⟩]
  ec_collation := .invalid
  canonical em hem c hc := by
    simp only [List.mem_cons, List.not_mem_nil, or_false] at hem
    rcases hem with rfl | rfl <;> exact (Option.some.inj hc).symm
  ec_sources := [equalityClause 1 1 1 2 1 ∅]
  ec_relids := {1, 2}
  sources_relids := by decide

def folderPath (columns : List String) : PathKeyDecl → Option ParamPath :=
  pathOf ⟨[joinOnFolder], [], []⟩ folderTable 1 wrappingDouble
    (filesystemWidth (some "content") columns) 20

/-- Two columns of the table, joined on the folder, and `LIMIT 1`. -/
theorem estimates_of_two_columns :
    KeyEstimatesSound (folderPath ["a", "b"])
        (filesystemPathKeys (some "filename") ["a", "b", "c", "d"]) ∧
      FinalEstimateSound limitOverTable
        (finalPath (fun _ _ => true) limitOverTable 60 (some unsortedScan)) := by
  apply (estimates_sound_iff (by decide) ?_).mpr
  · constructor
    · exact filesystem_estimates_fit (by decide) (by decide) (by decide)
    · intro _
      exact ⟨1, rfl, by decide, by decide⟩
  · intro n hn
    obtain rfl := Option.some.inj hn
    decide

/-- `SELECT * FROM t OFFSET 5`. -/
def offsetOverTable : SelectQuery where
  commandType := .select
  limitOption := .count
  jointree := .fromExpr (.rangeTblRef 1) []
  limitCount := none
  limitOffset := some (.const (some 5))
  sortClause := false
  sort_pathkeys := []
  otherStages := false
  targetSRFs := none
  unsorted := no_pathkeys

/-- The content of a tree four folders deep, and an OFFSET without a LIMIT. -/
theorem estimates_wrap_around :
    ¬ KeyEstimatesSound (folderPath ["content"])
        (filesystemPathKeys (some "filename") ["a", "b", "c", "d"]) ∧
      ¬ FinalEstimateSound offsetOverTable
        (finalPath (fun _ _ => true) offsetOverTable 60 (some unsortedScan)) := by
  constructor
  · intro h
    have hpath : folderPath ["content"] ⟨[some "a"], 1000000⟩ =
        some ⟨1000000, 20, -697379968, {2}, 1000000, [equalityClause 1 1 1 2 1 ∅]⟩ := by rfl
    have hcost := (h.1 ⟨[some "a"], 1000000⟩ (by decide) _ hpath).2.2
    revert hcost
    decide
  · intro h
    have hrows := (h _ _ (rfl : finalPath (fun _ _ => true) offsetOverTable 60 (some unsortedScan) =
      some (⟨[], some ⟨5, -1, []⟩⟩, ⟨-1, -60⟩))).1
    revert hrows
    decide

end Sample

end Multicorn.Planner
