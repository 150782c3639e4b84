import Mathlib.Data.Finset.Card
import Mathlib.Logic.Relation
import MethodFlow.Throwable.Catching

/-!
# Ancestors, and hierarchies that say more

`isSubtype` walks up from a class for a bounded number of steps. Here the walk is unbounded:
`IsAbove` says that some number of steps leads from a class to another one. The two agree
(`isSubtype_iff`), because a way up that is longer than the list of entries passes some class twice
and can be cut short. So cycles do no harm: subtyping is what following entries leads to
(`isSubtype_closure`). A class has one superclass, so of two classes above a third one is above the
other, and catch matching between known types is exact (`matching_exact`).

A hierarchy is open, so it may be completed later (`Completes`): classes it does not know get a
superclass, those it knows keep theirs. Catch matching should not come to another result then. It
asks only whether the two types themselves are known, so this depends on what is above them. A class
is `Charted` if nothing unknown is, and `mayCatch_conservative_iff` says that a ruled out catch
stays ruled out in every completion exactly if both types are charted.
-/

namespace MethodFlow.ClassHierarchy

variable {h h' : ClassHierarchy} {cls sub sup : TypeName}

/-! ## Ways up -/

/-- The class so many steps above a class, as far as the entries lead. -/
def ancestor? (h : ClassHierarchy) : Nat → TypeName → Option TypeName
  | 0, cls => some cls
  | n + 1, cls => (h.superclass? cls).bind (h.ancestor? n)

/-- `sup` is `sub` itself or a class that the entries lead to from there. -/
def IsAbove (h : ClassHierarchy) (sup sub : TypeName) : Prop := ∃ n, h.ancestor? n sub = some sup

theorem isAbove_refl (h : ClassHierarchy) (cls : TypeName) : h.IsAbove cls cls := ⟨0, rfl⟩

theorem ancestor?_add (h : ClassHierarchy) (m n : Nat) (cls : TypeName) :
    h.ancestor? (m + n) cls = (h.ancestor? m cls).bind (h.ancestor? n) := by
  induction m generalizing cls with
  | zero => rw [Nat.zero_add, ancestor?, Option.bind_some]
  | succ m ih =>
    rw [Nat.succ_add, ancestor?, ancestor?, Option.bind_assoc]
    exact Option.bind_congr fun above _ => ih above

theorem IsAbove.trans {mid : TypeName} (h₁ : h.IsAbove sup mid) (h₂ : h.IsAbove mid sub) :
    h.IsAbove sup sub := by
  obtain ⟨m, hm⟩ := h₁
  obtain ⟨n, hn⟩ := h₂
  refine ⟨n + m, ?_⟩
  rw [ancestor?_add, hn]
  exact hm

/-- Of two classes above a third one, one is above the other. -/
theorem IsAbove.total {a b : TypeName} (ha : h.IsAbove a sub) (hb : h.IsAbove b sub) :
    h.IsAbove a b ∨ h.IsAbove b a := by
  obtain ⟨m, hm⟩ := ha
  obtain ⟨n, hn⟩ := hb
  rcases Nat.le_total m n with hle | hle
  · obtain ⟨k, rfl⟩ := Nat.exists_eq_add_of_le hle
    rw [ancestor?_add, hm] at hn
    exact Or.inr ⟨k, hn⟩
  · obtain ⟨k, rfl⟩ := Nat.exists_eq_add_of_le hle
    rw [ancestor?_add, hn] at hm
    exact Or.inl ⟨k, hm⟩

theorem meets_iff (h : ClassHierarchy) (sup : TypeName) (n : Nat) (cls : TypeName) :
    h.meets sup n cls = true ↔ ∃ k < n, h.ancestor? k cls = some sup := by
  induction n generalizing cls with
  | zero =>
    constructor
    · intro hm
      exact absurd hm (by simp [meets])
    · rintro ⟨k, hk, _⟩
      exact absurd hk (Nat.not_lt_zero k)
  | succ n ih =>
    rw [meets, Bool.or_eq_true, beq_iff_eq]
    constructor
    · rintro (rfl | hm)
      · exact ⟨0, Nat.succ_pos n, rfl⟩
      · cases hs : h.superclass? cls with
        | none => simp [hs] at hm
        | some above =>
          rw [hs] at hm
          obtain ⟨k, hk, hup⟩ := (ih above).mp hm
          refine ⟨k + 1, Nat.succ_lt_succ hk, ?_⟩
          rw [ancestor?, hs]
          exact hup
    · rintro ⟨k, hk, hup⟩
      cases k with
      | zero => exact Or.inl (Option.some.inj hup)
      | succ k =>
        rw [ancestor?] at hup
        obtain ⟨above, hs, hup⟩ := Option.bind_eq_some_iff.mp hup
        rw [hs]
        exact Or.inr ((ih above).mpr ⟨k, Nat.lt_of_succ_lt_succ hk, hup⟩)

/-! ## Long ways up can be cut short -/

theorem mem_keys_of_superclass? {above : TypeName} (hs : h.superclass? cls = some above) :
    cls ∈ h.parents.map (·.1) := by
  obtain ⟨l₁, l₂, hl, _⟩ := List.lookup_eq_some_iff.mp hs
  rw [hl, List.map_append, List.map_cons]
  exact List.mem_append_right _ List.mem_cons_self

/-- Before the end of a way up every class has an entry. -/
theorem exists_ancestor? {n k : Nat} (hup : h.ancestor? n cls = some sup) (hk : k < n) :
    ∃ c, h.ancestor? k cls = some c ∧ c ∈ h.parents.map (·.1) := by
  obtain ⟨m, rfl⟩ := Nat.exists_eq_add_of_lt hk
  rw [Nat.add_assoc, ancestor?_add] at hup
  obtain ⟨c, hc, hup⟩ := Option.bind_eq_some_iff.mp hup
  rw [ancestor?] at hup
  obtain ⟨above, hs, _⟩ := Option.bind_eq_some_iff.mp hup
  exact ⟨c, hc, mem_keys_of_superclass? hs⟩

/-- A way up with more steps than there are entries passes some class twice. -/
theorem exists_shorter {n : Nat} (hup : h.ancestor? n cls = some sup) (hn : h.size < n) :
    ∃ k < n, h.ancestor? k cls = some sup := by
  have hmaps : ∀ k ∈ Finset.range n,
      (h.ancestor? k cls).getD sup ∈ (h.parents.map (·.1)).toFinset := by
    intro k hk
    obtain ⟨c, hc, hmem⟩ := exists_ancestor? hup (Finset.mem_range.mp hk)
    rw [hc]
    exact List.mem_toFinset.mpr hmem
  have hcard : (h.parents.map (·.1)).toFinset.card < (Finset.range n).card := by
    have hle := List.toFinset_card_le (h.parents.map (·.1))
    rw [List.length_map] at hle
    rw [Finset.card_range]
    exact Nat.lt_of_le_of_lt hle hn
  obtain ⟨i, hi, j, hj, hne, hsame⟩ := Finset.exists_ne_map_eq_of_card_lt_of_maps_to hcard hmaps
  -- the steps between the two visits of one class are left out
  have hcut : ∀ i j, i < j → j < n → (h.ancestor? i cls).getD sup = (h.ancestor? j cls).getD sup →
      ∃ k < n, h.ancestor? k cls = some sup := by
    intro i j hij hjn hsame
    obtain ⟨a, ha, _⟩ := exists_ancestor? hup (Nat.lt_trans hij hjn)
    obtain ⟨b, hb, _⟩ := exists_ancestor? hup hjn
    rw [ha, hb, Option.getD_some, Option.getD_some] at hsame
    obtain ⟨m, rfl⟩ := Nat.exists_eq_add_of_lt hjn
    refine ⟨i + (m + 1), by omega, ?_⟩
    rw [Nat.add_assoc, ancestor?_add, hb] at hup
    rw [ancestor?_add, ha, hsame]
    exact hup
  rw [Finset.mem_range] at hi hj
  rcases Nat.lt_or_gt_of_ne hne with hij | hji
  · exact hcut i j hij hj hsame
  · exact hcut j i hji hi hsame.symm

/-- Every ancestor is met within as many steps as there are entries. -/
theorem IsAbove.exists_le_size (ha : h.IsAbove sup sub) :
    ∃ n ≤ h.size, h.ancestor? n sub = some sup := by
  obtain ⟨n, hn⟩ := ha
  induction n using Nat.strongRecOn with
  | ind n ih =>
    by_cases hle : n ≤ h.size
    · exact ⟨n, hle, hn⟩
    · obtain ⟨k, hk, hup⟩ := exists_shorter hn (Nat.lt_of_not_le hle)
      exact ih k hk hup

/-- The bounded walk finds every ancestor. -/
theorem isSubtype_iff : h.isSubtype sub sup = true ↔ sup = Throwable.root ∨ h.IsAbove sup sub := by
  rw [isSubtype, Bool.or_eq_true, beq_iff_eq, meets_iff]
  refine or_congr_right ?_
  constructor
  · rintro ⟨n, _, hup⟩
    exact ⟨n, hup⟩
  · intro ha
    obtain ⟨n, hn, hup⟩ := ha.exists_le_size
    exact ⟨n, Nat.lt_succ_of_le hn, hup⟩

/-! ## Subtyping is what the entries lead to -/

theorem isSubtype_refl (h : ClassHierarchy) (cls : TypeName) : h.isSubtype cls cls = true :=
  isSubtype_iff.mpr (Or.inr (h.isAbove_refl cls))

/-- Nothing but the root itself is above the root, if it has no entry. -/
theorem IsAbove.eq_root (hroot : h.superclass? Throwable.root = none)
    (ha : h.IsAbove sup Throwable.root) :
    sup = Throwable.root := by
  obtain ⟨n, hn⟩ := ha
  cases n with
  | zero => exact (Option.some.inj hn).symm
  | succ n =>
    rw [ancestor?, hroot] at hn
    exact nomatch hn

/-- With an entry for the root this fails: everything is below the root, but not below what the
entry names. -/
theorem isSubtype_trans (hroot : h.superclass? Throwable.root = none) {mid : TypeName}
    (h₁ : h.isSubtype sub mid = true) (h₂ : h.isSubtype mid sup = true) :
      h.isSubtype sub sup = true := by
  rw [isSubtype_iff] at h₁ h₂ ⊢
  rcases h₂ with hsup | hsup
  · exact Or.inl hsup
  · rcases h₁ with rfl | hmid
    · exact Or.inl (hsup.eq_root hroot)
    · exact Or.inr (hsup.trans hmid)

/-- An entry of the hierarchy leads from a class to its superclass. -/
def Entry (h : ClassHierarchy) (cls above : TypeName) : Prop := h.superclass? cls = some above

theorem isAbove_iff_reflTransGen : h.IsAbove sup sub ↔ Relation.ReflTransGen h.Entry sub sup := by
  constructor
  · rintro ⟨n, hn⟩
    induction n generalizing sub with
    | zero => exact Option.some.inj hn ▸ .refl
    | succ n ih =>
      rw [ancestor?] at hn
      obtain ⟨above, hs, hup⟩ := Option.bind_eq_some_iff.mp hn
      exact .head hs (ih hup)
  · intro hup
    induction hup using Relation.ReflTransGen.head_induction_on with
    | refl => exact h.isAbove_refl sup
    | @head cls above hs _ ih =>
      have hstep : h.IsAbove above cls := ⟨1, by rw [ancestor?, hs]; rfl⟩
      exact ih.trans hstep

/-- The walk up is exact, also in hierarchies with cycles: apart from the root, a class has for its
supertypes just what following entries leads to. However many tests are made, those that are one
more than the entries find as much. If the root has no entry, subtyping is reflexive and
transitive. -/
theorem isSubtype_closure (h : ClassHierarchy) :
    (∀ sub sup, h.isSubtype sub sup = true ↔ sup = Throwable.root ∨
      Relation.ReflTransGen h.Entry sub sup) ∧
    (∀ sub sup tests, h.meets sup tests sub = true → h.meets sup (h.size + 1) sub = true) ∧
    (h.superclass? Throwable.root = none →
      (∀ cls, h.isSubtype cls cls = true) ∧
      ∀ sub mid sup, h.isSubtype sub mid = true → h.isSubtype mid sup = true →
        h.isSubtype sub sup = true) := by
  refine ⟨fun sub sup => ?_, fun sub sup tests hm => ?_,
    fun hroot => ⟨h.isSubtype_refl, fun sub mid sup => ?_⟩⟩
  · rw [isSubtype_iff, isAbove_iff_reflTransGen]
  · obtain ⟨n, _, hup⟩ := (meets_iff h sup tests sub).mp hm
    obtain ⟨k, hk, hup⟩ := IsAbove.exists_le_size ⟨n, hup⟩
    exact (meets_iff h sup (h.size + 1) sub).mpr ⟨k, Nat.lt_succ_of_le hk, hup⟩
  · exact isSubtype_trans hroot

/-- One test fewer would not do: a class without an entry can be as many steps up as there are
entries. -/
example :
    let h := empty.extend [("A", "B"), ("B", "C"), ("C", "D")]
    h.meets "D" h.size "A" = false ∧ h.isSubtype "A" "D" = true := by
  decide +kernel

/-- A way up that comes into a cycle stays there. -/
theorem isSubtype_closure_tailedCycle :
    let h := empty.extend [("A", "B"), ("B", "C"), ("C", "D"), ("D", "B")]
    h.superclass? Throwable.root = none ∧ Relation.ReflTransGen h.Entry "A" "D" ∧
      ¬ Relation.ReflTransGen h.Entry "D" "A" ∧
      (∀ tests, h.meets "E" tests "A" = false) ∧
      ∀ sub, h.isSubtype sub "D" = true → h.isSubtype sub "C" = true := by
  intro h
  obtain ⟨hexact, henough, hpreorder⟩ := isSubtype_closure h
  have hroot : h.superclass? Throwable.root = none := by decide +kernel
  have hne : ∀ {cls}, cls ∈ ["A", "D"] → cls ≠ Throwable.root := by decide
  refine ⟨hroot, ?_, fun hup => ?_, fun tests => ?_, fun sub hsub => ?_⟩
  · exact ((hexact "A" "D").mp (by decide +kernel)).resolve_left (hne (by decide))
  · exact absurd ((hexact "D" "A").mpr (Or.inr hup)) (by decide +kernel)
  · exact Bool.eq_false_of_not_eq_true fun hm =>
      absurd (henough "A" "E" tests hm) (by decide +kernel)
  · exact (hpreorder hroot).2 sub "D" "C" hsub (by decide +kernel)

/-! ## What is caught, by the subtypes -/

/-- With single inheritance, two types have a common subtype only if one of them is below the
other. -/
theorem isSubtype_or_of_common {a b d : TypeName} (ha : h.isSubtype d a = true)
    (hb : h.isSubtype d b = true) :
    h.isSubtype a b = true ∨ h.isSubtype b a = true := by
  simp only [isSubtype_iff] at ha hb ⊢
  rcases ha with ha | ha
  · exact Or.inr (Or.inl ha)
  · rcases hb with hb | hb
    · exact Or.inl (Or.inl hb)
    · exact (ha.total hb).symm.imp Or.inr Or.inr

/-- What may be caught: some class lies below both the thrown and the caught one. -/
theorem mayCatch_iff_common {thrown caught : TypeName} (hthrown : h.contains thrown = true)
    (hcaught : h.contains caught = true) :
    h.subtyping.mayCatch thrown caught = true ↔
      ∃ d, h.isSubtype d thrown = true ∧ h.isSubtype d caught = true := by
  have hmay : h.subtyping.mayCatch thrown caught = true ↔
      h.isSubtype thrown caught = true ∨ h.isSubtype caught thrown = true := by
    simp [Subtyping.mayCatch, subtyping, hthrown, hcaught]
  rw [hmay]
  constructor
  · rintro (hle | hle)
    · exact ⟨thrown, h.isSubtype_refl thrown, hle⟩
    · exact ⟨caught, hle, h.isSubtype_refl caught⟩
  · rintro ⟨d, h₁, h₂⟩
    exact isSubtype_or_of_common h₁ h₂

/-- What is certainly caught: every class below the thrown one lies below the caught one. -/
theorem definitelyCatches_iff_all (hroot : h.superclass? Throwable.root = none)
    {thrown caught : TypeName} (hcaught : h.contains caught = true) :
    h.subtyping.definitelyCatches thrown caught = true ↔
      ∀ d, h.isSubtype d thrown = true → h.isSubtype d caught = true := by
  have hdef : h.subtyping.definitelyCatches thrown caught = true ↔
      h.isSubtype thrown caught = true := by
    simp [Subtyping.definitelyCatches, subtyping, hcaught]
  rw [hdef]
  constructor
  · intro hle d hd
    exact isSubtype_trans hroot hd hle
  · intro hall
    exact hall thrown (h.isSubtype_refl thrown)

/-- Between known types matching is exact: a catch is possible if some type is below both, and
certain if all that is below the thrown type is below the caught one. Whatever the types, a certain
catch is possible. -/
theorem matching_exact (h : ClassHierarchy) (hroot : h.superclass? Throwable.root = none)
    (thrown caught : TypeName) :
    (h.contains thrown = true → h.contains caught = true →
      (h.subtyping.mayCatch thrown caught = true ↔
        ∃ d, h.isSubtype d thrown = true ∧ h.isSubtype d caught = true) ∧
      (h.subtyping.definitelyCatches thrown caught = true ↔
        ∀ d, h.isSubtype d thrown = true → h.isSubtype d caught = true)) ∧
    (h.subtyping.definitelyCatches thrown caught = true →
      h.subtyping.mayCatch thrown caught = true) := by
  constructor
  · intro hthrown hcaught
    exact ⟨mayCatch_iff_common hthrown hcaught, definitelyCatches_iff_all hroot hcaught⟩
  · intro hd
    rw [Subtyping.definitelyCatches, Bool.and_eq_true] at hd
    simp [Subtyping.mayCatch, hd.2]

/-- Two configured classes that extend each other have the same subtypes, none of which is an
`IOException`. -/
theorem matching_exact_cyclic :
    let h :=
      javaLang.extend [("RetryException", "BackoffException"),
        ("BackoffException", "RetryException")]
    h.superclass? Throwable.root = none ∧
      (∀ d, h.isSubtype d "RetryException" = true → h.isSubtype d "BackoffException" = true) ∧
      (∀ d, h.isSubtype d "RetryException" = true → h.isSubtype d "IOException" = false) := by
  intro h
  have hroot : h.superclass? Throwable.root = none := by decide +kernel
  have hretry : h.contains "RetryException" = true := by decide +kernel
  refine ⟨hroot, ?_, fun d hd => Bool.eq_false_of_not_eq_true fun hio => ?_⟩
  · exact (((matching_exact h hroot _ _).1 hretry (by decide +kernel)).2.mp (by decide +kernel))
  · have hmay := ((matching_exact h hroot _ _).1 hretry (by decide +kernel)).1.mpr ⟨d, hd, hio⟩
    exact absurd hmay (by decide +kernel)

/-! ## Entries that are added -/

theorem superclass?_insert_self (h : ClassHierarchy) (cls above : TypeName) :
    (h.insert cls above).superclass? cls = some above := by
  rw [insert, superclass?, List.lookup_cons_self]

theorem superclass?_insert_of_ne {above c : TypeName} (hne : c ≠ cls) :
    (h.insert cls above).superclass? c = h.superclass? c := by
  have hfilter : ∀ entries : List (TypeName × TypeName),
      (entries.filter (·.1 != cls)).lookup c = entries.lookup c := by
    intro entries
    induction entries with
    | nil => rfl
    | cons e entries ih =>
      by_cases he : e.1 = cls
      · rw [List.filter_cons_of_neg (by simp [he]), ih, List.lookup_cons]
        rw [beq_false_of_ne fun hc => hne (hc.trans he)]
      · rw [List.filter_cons_of_pos (by simp [he]), List.lookup_cons, List.lookup_cons, ih]
  rw [insert, superclass?, List.lookup_cons, beq_false_of_ne hne]
  exact hfilter h.parents

theorem superclass?_extend_of_not_mem {entries : List (TypeName × TypeName)}
    (hc : ∀ e ∈ entries, e.1 ≠ cls) :
    (h.extend entries).superclass? cls = h.superclass? cls := by
  unfold extend
  induction entries generalizing h with
  | nil => rfl
  | cons e entries ih =>
    rw [List.foldl_cons, ih fun e' he' => hc e' (List.mem_cons_of_mem _ he')]
    exact superclass?_insert_of_ne (hc e List.mem_cons_self).symm

/-- `h'` says of the classes that `h` knows what `h` says; it may know others besides. -/
def Completes (h' h : ClassHierarchy) : Prop :=
  ∀ cls, h.contains cls = true → h'.superclass? cls = h.superclass? cls

/-- Entries for unknown classes complete a hierarchy. -/
theorem completes_extend {entries : List (TypeName × TypeName)}
    (hnew : ∀ e ∈ entries, h.contains e.1 = false) :
    (h.extend entries).Completes h := by
  intro cls hcls
  refine superclass?_extend_of_not_mem fun e he heq => ?_
  rw [← heq, hnew e he] at hcls
  exact Bool.false_ne_true hcls

/-! ## Catches that are ruled out -/

/-- If the class is known then so is everything above it. -/
def Charted (h : ClassHierarchy) (cls : TypeName) : Prop :=
  h.contains cls = true → ∀ sup, h.IsAbove sup cls → h.contains sup = true

/-- A charted class keeps its ancestors. -/
theorem Completes.ancestor?_eq (hh : h'.Completes h) (hcls : h.contains cls = true)
    (hchart : h.Charted cls) (n : Nat) : h'.ancestor? n cls = h.ancestor? n cls := by
  induction n generalizing cls with
  | zero => rfl
  | succ n ih =>
    rw [ancestor?, ancestor?, hh cls hcls]
    refine Option.bind_congr fun above hs => ?_
    have hstep : h.IsAbove above cls := ⟨1, by rw [ancestor?, hs]; rfl⟩
    exact ih (hchart hcls above hstep) fun _ sup hsup => hchart hcls sup (hsup.trans hstep)

/-- Completing a hierarchy leaves the ancestors of a charted class as they were. -/
theorem Completes.isAbove_iff (hh : h'.Completes h) (hcls : h.contains cls = true)
    (hchart : h.Charted cls) :
    h'.IsAbove sup cls ↔ h.IsAbove sup cls := by
  unfold IsAbove
  simp only [hh.ancestor?_eq hcls hchart]

/-- A catch is ruled out only between known classes neither of which is above the other. -/
theorem mayCatch_eq_false_iff {thrown caught : TypeName} :
    h.subtyping.mayCatch thrown caught = false ↔ h.contains thrown = true ∧
      h.contains caught = true ∧
      h.isSubtype thrown caught = false ∧ h.isSubtype caught thrown = false := by
  simp only [Subtyping.mayCatch, subtyping, Bool.or_eq_false_iff, Bool.not_eq_false', and_assoc]

/-- A completion of the hierarchy in which some class is below both types reveals no catch that was
ruled out, if both types are charted. -/
theorem Completes.mayCatch {thrown caught d : TypeName} (hh : h'.Completes h)
    (hthrown : h.Charted thrown) (hcaught : h.Charted caught) (h₁ : h'.isSubtype d thrown = true)
    (h₂ : h'.isSubtype d caught = true) :
    h.subtyping.mayCatch thrown caught = true := by
  by_contra hnot
  obtain ⟨hkt, hkc, hs₁, hs₂⟩ := mayCatch_eq_false_iff.mp (Bool.eq_false_of_not_eq_true hnot)
  have hroot : ∀ {a b}, h.isSubtype a b = false → b ≠ Throwable.root ∧ ¬ h.IsAbove b a := by
    intro a b hs
    exact not_or.mp fun hor => Bool.false_ne_true (hs.symm.trans (isSubtype_iff.mpr hor))
  have hd₁ := (isSubtype_iff.mp h₁).resolve_left (hroot hs₂).1
  have hd₂ := (isSubtype_iff.mp h₂).resolve_left (hroot hs₁).1
  rcases hd₁.total hd₂ with hab | hab
  · exact (hroot hs₂).2 ((hh.isAbove_iff hkc hcaught).mp hab)
  · exact (hroot hs₁).2 ((hh.isAbove_iff hkt hthrown).mp hab)

/-- Above a class that is not charted there is a first unknown class: no entry is missing below
it. -/
theorem exists_unknown (hchart : ¬ h.Charted cls) :
    ∃ n u, h.ancestor? n cls = some u ∧ h.contains u = false ∧
      ∀ k < n, ∀ c, h.ancestor? k cls = some c → h.contains c = true := by
  unfold Charted IsAbove at hchart
  push Not at hchart
  obtain ⟨_, u, ⟨n, hn⟩, hu⟩ := hchart
  induction n using Nat.strongRecOn generalizing u with
  | ind n ih =>
    by_cases hall : ∀ k < n, ∀ c, h.ancestor? k cls = some c → h.contains c = true
    · exact ⟨n, u, hn, Bool.eq_false_of_not_eq_true hu, hall⟩
    · push Not at hall
      obtain ⟨k, hk, c, hc, hunknown⟩ := hall
      exact ih k hk c hunknown hc

/-- What lies above the first unknown class is up to the completion. -/
theorem exists_completion (hchart : ¬ h.Charted cls) (sup : TypeName) :
    ∃ h' : ClassHierarchy, h'.Completes h ∧ h'.IsAbove sup cls := by
  obtain ⟨n, u, hn, hu, hbelow⟩ := exists_unknown hchart
  have hcomplete : (h.extend [(u, sup)]).Completes h :=
    completes_extend fun e he => by rw [List.mem_singleton.mp he, hu]
  refine ⟨_, hcomplete, ?_⟩
  have hsame : ∀ k ≤ n, (h.extend [(u, sup)]).ancestor? k cls = h.ancestor? k cls := by
    intro k hk
    induction k with
    | zero => rfl
    | succ k ih =>
      rw [ancestor?_add, ancestor?_add, ih (by omega)]
      refine Option.bind_congr fun c hc => ?_
      rw [ancestor?, ancestor?, hcomplete c (hbelow k (by omega) c hc)]
      rfl
  have hstep : (h.extend [(u, sup)]).superclass? u = some sup := superclass?_insert_self h u sup
  refine ⟨n + 1, ?_⟩
  rw [ancestor?_add, hsame n le_rfl, hn, Option.bind_some, ancestor?, hstep]
  rfl

/-- Completing what is known of unknown classes reveals no catch that was ruled out, exactly if the
catch was not ruled out in the first place or neither of the two types is a known class below an
unknown one. -/
theorem mayCatch_conservative_iff (h : ClassHierarchy) (thrown caught : TypeName) :
    (∀ (h' : ClassHierarchy) (d : TypeName), h'.Completes h → h'.isSubtype d thrown = true →
        h'.isSubtype d caught = true → h.subtyping.mayCatch thrown caught = true) ↔
      h.subtyping.mayCatch thrown caught = true ∨ (h.Charted thrown ∧ h.Charted caught) := by
  constructor
  · intro hall
    by_contra hnot
    rw [not_or, Bool.not_eq_true] at hnot
    obtain ⟨hruled, huncharted⟩ := hnot
    -- the type below the unknown class becomes a subtype of the other one
    by_cases hthrown : h.Charted thrown
    · have hcaught : ¬ h.Charted caught := fun hc => huncharted ⟨hthrown, hc⟩
      obtain ⟨h', hh, hup⟩ := exists_completion hcaught thrown
      have hfound := hall h' caught hh (isSubtype_iff.mpr (Or.inr hup))
        (isSubtype_iff.mpr (Or.inr (h'.isAbove_refl caught)))
      exact Bool.false_ne_true (hruled.symm.trans hfound)
    · obtain ⟨h', hh, hup⟩ := exists_completion hthrown caught
      have hfound := hall h' thrown hh (isSubtype_iff.mpr (Or.inr (h'.isAbove_refl thrown)))
        (isSubtype_iff.mpr (Or.inr hup))
      exact Bool.false_ne_true (hruled.symm.trans hfound)
  · rintro (hmay | ⟨hthrown, hcaught⟩) h' d hh h₁ h₂
    · exact hmay
    · exact hh.mayCatch hthrown hcaught h₁ h₂

/-- A configured exception may extend a class that nothing is known of. Matching then rules out a
catch that the missing entry reveals. -/
theorem mayCatch_uncharted :
    let h := javaLang.extend [("StorageException", "DriverException")]
    let h' := h.extend [("DriverException", "IOException")]
    h'.Completes h ∧ h'.isSubtype "StorageException" "StorageException" = true ∧
      h'.isSubtype "StorageException" "IOException" = true ∧
      h.subtyping.mayCatch "StorageException" "IOException" = false := by
  refine ⟨completes_extend ?_, ?_, ?_, ?_⟩ <;> decide +kernel

end MethodFlow.ClassHierarchy
