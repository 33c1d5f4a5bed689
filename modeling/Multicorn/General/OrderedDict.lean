import Mathlib.Data.List.Dedup

/-! Dictionaries that keep the order of insertion, and the order of the latest uses. -/
namespace Multicorn.Ordered

structure OrderedDict (α β : Type*) where
  entries : List (α × β)
  nodup : (entries.map (·.1)).Nodup

variable {α β : Type*}

def OrderedDict.keys (d : OrderedDict α β) : List α := d.entries.map (·.1)

theorem length_keys (d : OrderedDict α β) : d.keys.length = d.entries.length := List.length_map _

def OrderedDict.empty : OrderedDict α β := ⟨[], List.nodup_nil⟩

/-- `popitem(last=False)`. -/
def OrderedDict.popFirst (d : OrderedDict α β) : OrderedDict α β :=
  ⟨d.entries.tail, by rw [List.map_tail]; exact d.nodup.tail⟩

section Key

variable [DecidableEq α] {d : OrderedDict α β} {k : α} {v : β}

def OrderedDict.get? (d : OrderedDict α β) (k : α) : Option β :=
  (d.entries.find? fun p => p.1 = k).map (·.2)

/-- `pop`, without the value. -/
def OrderedDict.pop (d : OrderedDict α β) (k : α) : OrderedDict α β :=
  ⟨d.entries.filter fun p => p.1 ≠ k, d.nodup.sublist (List.filter_sublist.map _)⟩

private theorem nodup_assign (entries : List (α × β)) (h : (entries.map (·.1)).Nodup) :
    ((if k ∈ entries.map (·.1) then entries.map fun p => if p.1 = k then (k, v) else p
      else entries ++ [(k, v)]).map (·.1)).Nodup := by
  split_ifs with hk
  · have hkeys : (entries.map fun p => if p.1 = k then (k, v) else p).map (·.1) =
        entries.map (·.1) := by
      rw [List.map_map]
      apply List.map_congr_left
      intro p _
      by_cases hp : p.1 = k <;> simp [hp]
    rw [hkeys]
    exact h
  · rw [List.map_append, List.map_singleton]
    apply List.nodup_append.mpr
    refine ⟨h, List.nodup_singleton k, ?_⟩
    rintro a ha b hb rfl
    rw [List.mem_singleton.mp hb] at ha
    exact hk ha

/-- Assignment. A key that is there keeps its place, and a new one goes to the end. -/
def OrderedDict.assign (d : OrderedDict α β) (k : α) (v : β) : OrderedDict α β :=
  ⟨if k ∈ d.entries.map (·.1) then d.entries.map fun p => if p.1 = k then (k, v) else p
    else d.entries ++ [(k, v)], nodup_assign d.entries d.nodup⟩

theorem mem_of_get? (h : d.get? k = some v) : (k, v) ∈ d.entries := by
  obtain ⟨⟨k', v'⟩, hfind, rfl⟩ := Option.map_eq_some_iff.mp h
  have hk : k' = k := by simpa using List.find?_some hfind
  rw [← hk]
  exact List.mem_of_find?_eq_some hfind

theorem get?_eq_none : d.get? k = none ↔ k ∉ d.keys := by
  simp only [OrderedDict.get?, OrderedDict.keys, Option.map_eq_none_iff, List.find?_eq_none,
    List.mem_map, not_exists, not_and, decide_eq_true_eq]

theorem keys_pop (d : OrderedDict α β) (k : α) : (d.pop k).keys = d.keys.filter (· ≠ k) := by
  rw [OrderedDict.keys, OrderedDict.keys, OrderedDict.pop, List.filter_map]
  rfl

theorem notMem_keys_pop (d : OrderedDict α β) (k : α) : k ∉ (d.pop k).keys := by
  rw [keys_pop]
  simp

theorem length_pop_le (d : OrderedDict α β) (k : α) :
    (d.pop k).entries.length ≤ d.entries.length := List.length_filter_le _ _

theorem length_pop_lt (h : (k, v) ∈ d.entries) : (d.pop k).entries.length < d.entries.length := by
  apply List.length_filter_lt_length_iff_exists.mpr
  exact ⟨(k, v), h, by simp⟩

theorem mem_pop {p : α × β} (h : p ∈ (d.pop k).entries) : p ∈ d.entries := List.mem_of_mem_filter h

theorem mem_assign {p : α × β} (h : p ∈ (d.assign k v).entries) : p ∈ d.entries ∨ p = (k, v) := by
  simp only [OrderedDict.assign] at h
  split_ifs at h
  · obtain ⟨q, hq, rfl⟩ := List.mem_map.mp h
    by_cases hk : q.1 = k
    · right
      rw [if_pos hk]
    · left
      rwa [if_neg hk]
  · simpa using h

theorem length_assign_le (d : OrderedDict α β) (k : α) (v : β) :
    (d.assign k v).entries.length ≤ d.entries.length + 1 := by
  simp only [OrderedDict.assign]
  split_ifs <;> simp

theorem keys_assign_new (h : k ∉ d.keys) : (d.assign k v).keys = d.keys ++ [k] := by
  have hk : ¬ k ∈ d.entries.map (·.1) := h
  have hentries : (d.assign k v).entries = d.entries ++ [(k, v)] := if_neg hk
  rw [OrderedDict.keys, hentries, List.map_append]
  rfl

end Key

theorem keys_popFirst (d : OrderedDict α β) : d.popFirst.keys = d.keys.tail := List.map_tail

section Recent

variable [DecidableEq α]

/-- The last `n` distinct elements, the one used last at the end. -/
def recent (n : ℕ) (uses : List α) : List α := uses.dedup.drop (uses.dedup.length - n)

/-- Without the first element when there are too many. -/
def evict (n : ℕ) (l : List α) : List α := if n < l.length then l.tail else l

theorem dedup_concat (uses : List α) (a : α) :
    (uses ++ [a]).dedup = uses.dedup.filter (· ≠ a) ++ [a] := by
  induction uses with
  | nil => simp
  | cons b uses ih =>
    by_cases hb : b ∈ uses
    · rw [List.cons_append, List.dedup_cons_of_mem (List.mem_append_left _ hb),
        List.dedup_cons_of_mem hb, ih]
    · by_cases ha : b = a
      · have hmem : b ∈ uses ++ [a] := by simp [ha]
        rw [List.cons_append, List.dedup_cons_of_mem hmem, List.dedup_cons_of_notMem hb, ih,
          List.filter_cons_of_neg (by simpa using ha)]
      · have hmem : b ∉ uses ++ [a] := by simp [hb, ha]
        rw [List.cons_append, List.dedup_cons_of_notMem hmem, List.dedup_cons_of_notMem hb, ih,
          List.filter_cons_of_pos (by simpa using ha), List.cons_append]

theorem length_recent_le (n : ℕ) (uses : List α) : (recent n uses).length ≤ n := by
  rw [recent, List.length_drop]
  omega

theorem filter_ne_eq_self {l : List α} {a : α} (h : a ∉ l) : l.filter (· ≠ a) = l := by
  rw [List.filter_eq_self]
  intro b hb
  have hne : b ≠ a := fun he => h (he ▸ hb)
  simpa using hne

/-- A use moves its element to the end, and the element that was not used the longest is dropped
when there are too many. -/
theorem recent_concat (n : ℕ) (uses : List α) (a : α) :
    recent n (uses ++ [a]) = evict n ((recent n uses).filter (· ≠ a) ++ [a]) := by
  unfold recent
  rw [dedup_concat]
  have hnodup := List.nodup_dedup uses
  generalize uses.dedup = l at hnodup ⊢
  have hsplit : l = l.take (l.length - n) ++ l.drop (l.length - n) := (List.take_append_drop _ _).symm
  have htake : (l.take (l.length - n)).length = l.length - n := by
    rw [List.length_take]
    omega
  have hdrop : (l.drop (l.length - n)).length = l.length - (l.length - n) := List.length_drop
  generalize l.take (l.length - n) = old at hsplit htake
  generalize l.drop (l.length - n) = new at hsplit hdrop ⊢
  subst hsplit
  have hdisjoint := (List.nodup_append.mp hnodup).2.2
  rw [List.length_append] at htake hdrop
  rw [List.filter_append, List.length_append, List.length_append, List.length_singleton, evict,
    List.length_append, List.length_singleton]
  by_cases ha : a ∈ new
  · -- It is among the recent ones.
    have hold : a ∉ old := fun ho => hdisjoint a ho a ha rfl
    have hlen : (new.filter (· ≠ a)).length + 1 = new.length := by
      have hnew := (List.nodup_append.mp hnodup).2.1
      have herase : new.erase a = new.filter (· ≠ a) := by
        rw [hnew.erase_eq_filter]
        apply List.filter_congr
        intro b _
        rw [Bool.eq_iff_iff]
        simp
      rw [← herase, List.length_erase_of_mem ha]
      have hpos := List.length_pos_of_mem ha
      omega
    rw [filter_ne_eq_self hold, if_neg (by omega), List.append_assoc]
    have hcount : old.length + (new.filter (· ≠ a)).length + 1 - n = old.length := by omega
    rw [hcount, List.drop_left]
  · rw [filter_ne_eq_self ha]
    by_cases hfull : n < new.length + 1
    · rw [if_pos hfull, List.append_assoc]
      have hcount : (old.filter (· ≠ a)).length + new.length + 1 - n =
          (old.filter (· ≠ a)).length + 1 := by omega
      rw [hcount, List.drop_append, List.drop_of_length_le (by omega)]
      simp
    · have hnone : old = [] := by
        rw [← List.length_eq_zero_iff]
        omega
      rw [if_neg hfull, hnone]
      have hcount : ([].filter (· ≠ a) : List α).length + new.length + 1 - n = 0 := by
        simp only [List.filter_nil, List.length_nil]
        omega
      rw [hcount]
      rfl

theorem recent_concat_of_mem {n : ℕ} {uses : List α} {a : α} (h : a ∈ recent n uses) :
    recent n (uses ++ [a]) = (recent n uses).filter (· ≠ a) ++ [a] := by
  have hlt : ((recent n uses).filter (· ≠ a)).length < (recent n uses).length := by
    apply List.length_filter_lt_length_iff_exists.mpr
    exact ⟨a, h, by simp⟩
  have hle := length_recent_le n uses
  rw [recent_concat, evict, if_neg]
  rw [List.length_append, List.length_singleton]
  omega

end Recent

end Multicorn.Ordered
