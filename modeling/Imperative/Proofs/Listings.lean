import Imperative.Scope

/-!
# Listings of frames

A frame can be listed in many orders.  A listing (`Frame.Lists`) has every binding of the frame
once, and that is all that is known of it: which binding comes first depends on how the frame is
stored.

Sorting by name forgets the order (`Frame.arrange_congr`).  What comes out is a permutation of what
went in, so it has the same members.  No name stands twice in a listing, so the sorted entries are
in the *strict* order of the names, and a strictly ordered list is determined by its members.  Hence
a snapshot is what any listing of the innermost frame is sorted into (`Scope.snapshot_eq_arrange`).
-/

namespace Imperative

namespace Frame

/-- A listing of a frame has each of its bindings once, in whatever order. -/
structure Lists (f : Frame) (listed : List (String × Binding)) : Prop where
  once : (listed.map Prod.fst).Nodup
  mem_iff (name : String) (b : Binding) : (name, b) ∈ listed ↔ f[name]? = some b

variable {f g : Frame} {listed other : List (String × Binding)}

theorem Lists.nodup (h : Lists f listed) : listed.Nodup :=
  (List.pairwise_map.mp h.once).imp fun hne heq => hne (congrArg Prod.fst heq)

/-- The order does not matter. -/
theorem Lists.of_perm (h : Lists f listed) (hperm : other.Perm listed) : Lists f other where
  once := (hperm.map Prod.fst).nodup_iff.mpr h.once
  mem_iff name b := hperm.mem_iff.trans (h.mem_iff name b)

theorem lists_toList (f : Frame) : Lists f f.toList where
  once := by
    have hdistinct : f.toList.Pairwise fun x y => ¬ compare x.1 y.1 = .eq :=
      Std.ExtTreeMap.distinct_keys_toList
    rw [List.nodup_iff_pairwise_ne, List.pairwise_map]
    exact hdistinct.imp fun hne heq => hne (Std.compare_eq_iff_eq.mpr heq)
  mem_iff _ _ := Std.ExtTreeMap.mem_toList_iff_getElem?_eq_some

theorem lists_listing (f : Frame) : Lists f (listing f) := by
  have hreverse : listing f = f.toList.reverse := by
    rw [listing, Std.ExtTreeMap.foldl_eq_foldl_toList]
    exact (List.foldl_flip_cons_eq_append (f := id)).trans (by simp)
  rw [hreverse]
  exact (lists_toList f).of_perm (List.reverse_perm _)

/-- The listings of a frame are the reorderings of one of them. -/
theorem lists_iff_perm : Lists f listed ↔ listed.Perm (listing f) := by
  constructor
  · intro h
    refine (List.perm_ext_iff_of_nodup h.nodup (lists_listing f).nodup).mpr fun ⟨name, b⟩ => ?_
    rw [h.mem_iff, (lists_listing f).mem_iff]
  · exact (lists_listing f).of_perm

/-! ## Sorting by name -/

theorem arrange_perm (listed : List (String × Binding)) :
    (arrange listed).Perm (listed.map fun (name, b) => (name, b.value)) :=
  List.mergeSort_perm _ _

/-- The names are in strictly increasing order. -/
theorem Lists.pairwise_arrange (h : Lists f listed) :
    (arrange listed).Pairwise fun x y => x.1 < y.1 := by
  have hweak : (arrange listed).Pairwise fun x y => decide (x.1 ≤ y.1) = true := by
    refine List.pairwise_mergeSort (fun x y z hxy hyz => ?trans) (fun x y => ?total) _
    case trans =>
      exact decide_eq_true (String.le_trans (of_decide_eq_true hxy) (of_decide_eq_true hyz))
    case total =>
      rw [Bool.or_eq_true, decide_eq_true_iff, decide_eq_true_iff]
      exact String.le_total x.1 y.1
  have hnames : ((arrange listed).map Prod.fst).Nodup := by
    have hperm := (arrange_perm listed).map Prod.fst
    rw [List.map_map] at hperm
    exact hperm.nodup_iff.mpr h.once
  rw [List.nodup_iff_pairwise_ne, List.pairwise_map] at hnames
  refine hweak.imp₂ (fun x y hle hne => ?_) hnames
  exact String.not_le.mp fun hge => hne (String.le_antisymm (of_decide_eq_true hle) hge)

/-- The entries are the values of the frame. -/
theorem Lists.mem_arrange (h : Lists f listed) {name : String} {v : Value} :
    (name, v) ∈ arrange listed ↔ f[name]?.map Binding.value = some v := by
  rw [(arrange_perm listed).mem_iff, List.mem_map, Option.map_eq_some_iff]
  constructor
  · rintro ⟨⟨other, b⟩, hb, heq⟩
    cases heq
    exact ⟨b, (h.mem_iff name b).mp hb, rfl⟩
  · rintro ⟨b, hb, rfl⟩
    exact ⟨(name, b), (h.mem_iff name b).mpr hb, rfl⟩

theorem Lists.nodup_arrange (h : Lists f listed) : (arrange listed).Nodup :=
  h.pairwise_arrange.imp fun hlt heq => String.ne_of_lt hlt (congrArg Prod.fst heq)

/-- A list of values in the strict order of their names is the one that a listing of the same values
is sorted into. -/
theorem Lists.arrange_eq (h : Lists f listed) {entries : List (String × Value)}
    (hordered : entries.Pairwise fun x y => x.1 < y.1)
    (hmem : ∀ name v, (name, v) ∈ entries ↔ f[name]?.map Binding.value = some v) :
    arrange listed = entries := by
  have hnodup : entries.Nodup :=
    hordered.imp fun hlt heq => String.ne_of_lt hlt (congrArg Prod.fst heq)
  have hperm : (arrange listed).Perm entries := by
    refine (List.perm_ext_iff_of_nodup h.nodup_arrange hnodup).mpr fun ⟨name, v⟩ => ?_
    rw [h.mem_arrange, hmem]
  refine hperm.eq_of_pairwise (fun x y _ _ hxy hyx => ?_) h.pairwise_arrange hordered
  exact absurd hyx (String.lt_asymm hxy)

/-- **The order of a listing is invisible.**  Listings of frames that give the same values to the
same names are sorted into the same list, whatever their orders and annotations. -/
theorem Lists.arrange_congr (hf : Lists f listed) (hg : Lists g other)
    (h : ∀ name : String, f[name]?.map Binding.value = g[name]?.map Binding.value) :
    arrange listed = arrange other :=
  hf.arrange_eq hg.pairwise_arrange fun name v => by rw [hg.mem_arrange, h name]

end Frame

namespace Scope

variable (s : Scope)

/-- A snapshot does not depend on how the frame happens to be listed. -/
theorem snapshot_eq_arrange {listed : List (String × Binding)} (h : Frame.Lists s.own listed) :
    s.snapshot = Frame.arrange listed :=
  (Frame.lists_listing s.own).arrange_congr h fun _ => rfl

/-- A snapshot can be read off a map that keeps its names in order. -/
theorem snapshot_eq_toList :
    s.snapshot = s.own.toList.map fun (name, b) => (name, b.value) := by
  have hordered : s.own.toList.Pairwise fun x y => compare x.1 y.1 = .lt :=
    Std.ExtTreeMap.ordered_keys_toList
  have hlists := Frame.lists_toList s.own
  refine (Frame.lists_listing s.own).arrange_eq ?ordered fun name v => ?entries
  case ordered =>
    rw [List.pairwise_map]
    exact hordered.imp fun h => compareOfLessAndEq_eq_lt.mp h
  case entries => rw [← hlists.mem_arrange, (Frame.arrange_perm _).mem_iff]

end Scope

end Imperative
