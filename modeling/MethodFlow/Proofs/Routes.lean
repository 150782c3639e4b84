import MethodFlow.Proofs.Growth

/-!
# Where routes lead

A route out of a place in a body ends in one of the blocks that its scope names. `Scope.Leaves` says
that an edge starts some route of the scope, and `Scope.Registers` that a route of the scope leaves
a resumption with a `finally` clause. Going one `try` statement further in adds no more than
resumptions of its own `finally` clause, and these are edges that leave the scope around the
statement (`Registers.of_guarded`).

`Scope.Fits` says that the blocks named by a scope are still to come, or start a loop, in a draft;
then every edge that leaves the scope may be added (`Leaves.awaits`).
-/

namespace MethodFlow

/-- Inverts one step of a computation that may fail. -/
theorem Except.of_bind_ok {ε α β : Type} {x : Except ε α} {f : α → Except ε β} {b : β}
    (h : (x >>= f) = .ok b) : ∃ a, x = .ok a ∧ f a = .ok b := by
  cases x with
  | error e => exact nomatch h
  | ok a => exact ⟨a, rfl, h⟩

/-- Inverts one step of two computations side by side. -/
theorem Except.of_bind_ok₂ {ε α β : Type} {x x' : Except ε α} {f f' : α → Except ε β} {b b' : β}
    (h : (x >>= f) = .ok b) (h' : (x' >>= f') = .ok b') :
    ∃ a a', x = .ok a ∧ x' = .ok a' ∧ f a = .ok b ∧ f' a' = .ok b' := by
  obtain ⟨a, ha, h⟩ := Except.of_bind_ok h
  obtain ⟨a', ha', h'⟩ := Except.of_bind_ok h'
  exact ⟨a, a', ha, ha', h, h'⟩

namespace JumpRoute

/-- A handler without a `finally` clause is passed at once. -/
theorem through_cons_none {h : Handler} (hf : h.finalizer = none) (final : Edge)
    (outer : List Handler) : through final (h :: outer) = through final outer := by
  simp only [through, hf]

/-- A `finally` clause is entered first and resumes with the rest of the route. -/
theorem through_cons_some {h : Handler} {entry : BlockId} (hf : h.finalizer = some entry)
    (final : Edge) (outer : List Handler) :
    through final (h :: outer) = ⟨.sequential entry,
      (entry, (through final outer).edge) :: (through final outer).resumptions⟩ := by
  simp only [through, hf]

/-- A jump takes no notice of catch clauses. -/
theorem through_cons_congr {h h' : Handler} (hf : h.finalizer = h'.finalizer) (final : Edge)
    (outer : List Handler) : through final (h :: outer) = through final (h' :: outer) := by
  simp only [through, hf]

/-- A jump goes to a `finally` clause or straight to its goal. -/
theorem edge_through (final : Edge) (hs : List Handler) :
    (through final hs).edge = final ∨
      ∃ h ∈ hs, ∃ entry, h.finalizer = some entry ∧ (through final hs).edge =
        .sequential entry := by
  induction hs with
  | nil => exact Or.inl rfl
  | cons h outer ih =>
    cases hf : h.finalizer with
    | none =>
      rw [through_cons_none hf]
      rcases ih with ih | ⟨h', hm, entry, he, hr⟩
      · exact Or.inl ih
      · exact Or.inr ⟨h', List.mem_cons_of_mem _ hm, entry, he, hr⟩
    | some entry =>
      rw [through_cons_some hf]
      exact Or.inr ⟨h, List.mem_cons_self, entry, hf, rfl⟩

/-- A normal jump starts with a normal edge. -/
theorem isNormal_edge {final : Edge} (h : final.isNormal = true) (handlers : List Handler) :
    (through final handlers).edge.isNormal = true := by
  rcases edge_through final handlers with he | ⟨_, _, entry, _, he⟩
  · rw [he]
    exact h
  · rw [he]
    rfl

/-- The resumptions of a route are those of the innermost `finally` clause and those further out. -/
theorem mem_resumptions_cons {final : Edge} {h : Handler} {outer : List Handler}
    {p : BlockId × Edge} (hp : p ∈ (through final (h :: outer)).resumptions) :
    h.finalizer = some p.1 ∧ p.2 = (through final outer).edge ∨
      p ∈ (through final outer).resumptions := by
  cases hf : h.finalizer with
  | none =>
    rw [through_cons_none hf] at hp
    exact Or.inr hp
  | some entry =>
    rw [through_cons_some hf] at hp
    rcases List.mem_cons.mp hp with rfl | hp
    · exact Or.inl ⟨rfl, rfl⟩
    · exact Or.inr hp

/-- Resumptions belong to `finally` clauses on the way, and lead to another one or to the goal. -/
theorem mem_resumptions {final : Edge} {hs : List Handler} {p : BlockId × Edge}
    (hp : p ∈ (through final hs).resumptions) :
    (∃ h ∈ hs, h.finalizer = some p.1) ∧
      (p.2 = final ∨ ∃ h ∈ hs, ∃ entry, h.finalizer = some entry ∧ p.2 = .sequential entry) := by
  induction hs with
  | nil => exact nomatch hp
  | cons h outer ih =>
    rcases mem_resumptions_cons hp with ⟨hf, he⟩ | hp
    · refine ⟨⟨h, List.mem_cons_self, hf⟩, ?_⟩
      rw [he]
      refine (edge_through final outer).imp_right ?_
      rintro ⟨h', hm, hr⟩
      exact ⟨h', List.mem_cons_of_mem _ hm, hr⟩
    · obtain ⟨⟨h₁, hm₁, hf₁⟩, hr⟩ := ih hp
      refine ⟨⟨h₁, List.mem_cons_of_mem _ hm₁, hf₁⟩, hr.imp_right ?_⟩
      rintro ⟨h₂, hm₂, hr₂⟩
      exact ⟨h₂, List.mem_cons_of_mem _ hm₂, hr₂⟩

end JumpRoute

namespace CatchTarget

/-- A clause that receives every exception of a type can receive one. -/
theorem mayReceive_of_receivesAll {c : CatchTarget} {types : Subtyping} {thrown : TypeName}
    (h : c.receivesAll types thrown = true) : c.mayReceive types thrown = true := by
  obtain ⟨caught, hc, hd⟩ := List.any_eq_true.mp h
  refine List.any_eq_true.mpr ⟨caught, hc, ?_⟩
  rw [Subtyping.definitelyCatches, Bool.and_eq_true] at hd
  rw [Subtyping.mayCatch, hd.2]
  simp

end CatchTarget

/-- A block by which control can come to a handler: the entry of a clause or of the `finally`
clause. -/
def Handler.HasEntry (h : Handler) (id : BlockId) : Prop :=
  (∃ c ∈ h.catches, c.entry = id) ∨ h.finalizer = some id

namespace ThrowRoute

/-- Offering keeps the targets there were and adds entries of clauses. -/
theorem mem_offer {types : Subtyping} {clauses : List CatchTarget} {thrown : List TypeName}
    {targets : List BlockId} {id : BlockId} (h : id ∈ (offer types clauses thrown targets).2) :
    id ∈ targets ∨ ∃ c ∈ clauses, c.entry = id := by
  induction clauses generalizing thrown targets with
  | nil => exact Or.inl h
  | cons c clauses ih =>
    rcases ih h with h | ⟨c', hc, he⟩
    · split at h
      · rcases mem_appendNew.mp h with h | rfl
        · exact Or.inl h
        · exact Or.inr ⟨c, List.mem_cons_self, rfl⟩
      · exact Or.inl h
    · exact Or.inr ⟨c', List.mem_cons_of_mem _ hc, he⟩

theorem subset_offer (types : Subtyping) (clauses : List CatchTarget) (thrown : List TypeName)
    (targets : List BlockId) : targets ⊆ (offer types clauses thrown targets).2 := by
  induction clauses generalizing thrown targets with
  | nil => exact List.Subset.refl _
  | cons c clauses ih =>
    intro id hid
    refine ih _ _ ?_
    split
    · exact mem_appendNew.mpr (Or.inl hid)
    · exact hid

/-- Offering goes on with a list of types that does not depend on the targets found before. -/
theorem offer_fst (types : Subtyping) (clauses : List CatchTarget) (thrown : List TypeName)
    (targets targets' : List BlockId) :
    (offer types clauses thrown targets).1 = (offer types clauses thrown targets').1 := by
  induction clauses generalizing thrown targets targets' with
  | nil => rfl
  | cons c clauses ih => exact ih _ _ _

/-- When all types are received, some clause received one. -/
theorem offer_ne_nil {types : Subtyping} {clauses : List CatchTarget} {thrown : List TypeName}
    {targets : List BlockId} (ht : thrown ≠ [] ∨ targets ≠ [])
    (h : (offer types clauses thrown targets).1 = []) :
    (offer types clauses thrown targets).2 ≠ [] := by
  induction clauses generalizing thrown targets with
  | nil =>
    rcases ht with ht | ht
    · exact absurd h ht
    · exact ht
  | cons c clauses ih =>
    refine ih ?_ h
    by_cases hm : thrown.any (c.mayReceive types) = true
    · rw [if_pos hm]
      exact Or.inr (List.ne_nil_of_mem (mem_appendNew.mpr (Or.inr rfl)))
    · -- A clause that can receive nothing leaves all types over.
      rw [if_neg hm]
      refine ht.imp_left fun ht => ?_
      have hkeep : thrown.filter (!c.receivesAll types ·) = thrown := by
        refine List.filter_eq_self.mpr fun T hT => ?_
        rw [Bool.not_eq_true', ← Bool.not_eq_true]
        intro hr
        exact hm (List.any_eq_true.mpr ⟨T, hT, CatchTarget.mayReceive_of_receivesAll hr⟩)
      rw [hkeep]
      exact ht

variable {types : Subtyping} {toExit : Bool} {h : Handler} {outer hs : List Handler}
  {thrown : List TypeName} {targets : List BlockId}

/-- One `try` statement that receives everything ends the route. -/
theorem through_cons_done (hr : (offer types h.catches thrown targets).1 = []) :
    through types toExit (h :: outer) thrown targets =
      ⟨(offer types h.catches thrown targets).2, []⟩ := by
  simp only [through, hr, List.isEmpty_nil, if_true]

theorem through_cons_none (hr : (offer types h.catches thrown targets).1 ≠ [])
    (hf : h.finalizer = none) :
    through types toExit (h :: outer) thrown targets =
      through types toExit outer (offer types h.catches thrown targets).1
        (offer types h.catches thrown targets).2 := by
  simp only [through, hf, List.isEmpty_eq_false_iff.mpr hr, Bool.false_eq_true, if_false]

theorem through_cons_some {entry : BlockId} (hr : (offer types h.catches thrown targets).1 ≠ [])
    (hf : h.finalizer = some entry) :
    through types toExit (h :: outer) thrown targets =
      ⟨appendNew (offer types h.catches thrown targets).2 entry,
        (through types true outer (offer types h.catches thrown targets).1 []).resumptions ++
          (through types true outer (offer types h.catches thrown targets).1 []).targets.map
            fun target => (entry, .exceptional target)⟩ := by
  simp only [through, hf, List.isEmpty_eq_false_iff.mpr hr, Bool.false_eq_true, if_false]

/-- The resumptions of a route depend on neither the targets found before nor on what the exit is
worth. -/
theorem resumptions_through (types : Subtyping) (toExit toExit' : Bool) (hs : List Handler)
    (thrown : List TypeName) (targets targets' : List BlockId) :
    (through types toExit hs thrown targets).resumptions =
      (through types toExit' hs thrown targets').resumptions := by
  induction hs generalizing thrown targets targets' with
  | nil => rfl
  | cons h outer ih =>
    have hfst := offer_fst types h.catches thrown targets targets'
    by_cases hr : (offer types h.catches thrown targets).1 = []
    · rw [through_cons_done hr, through_cons_done (hfst ▸ hr)]
    · have hr' : (offer types h.catches thrown targets').1 ≠ [] := hfst ▸ hr
      cases hf : h.finalizer with
      | none =>
        rw [through_cons_none hr hf, through_cons_none hr' hf, hfst]
        exact ih _ _ _
      | some entry => rw [through_cons_some hr hf, through_cons_some hr' hf, hfst]

/-- Exceptions go to a clause, to a `finally` clause or, if that is of interest, to the exit. -/
theorem mem_targets {id : BlockId} (hid : id ∈ (through types toExit hs thrown targets).targets) :
    id ∈ targets ∨ (toExit = true ∧ id = Graph.exit) ∨ ∃ h ∈ hs, h.HasEntry id := by
  induction hs generalizing toExit thrown targets with
  | nil =>
    simp only [through] at hid
    split at hid
    · rename_i hexit
      rcases List.mem_append.mp hid with hid | hid
      · exact Or.inl hid
      · exact Or.inr (Or.inl ⟨(Bool.and_eq_true_iff.mp hexit).1, List.mem_singleton.mp hid⟩)
    · exact Or.inl hid
  | cons h outer ih =>
    have here : id ∈ (offer types h.catches thrown targets).2 →
        id ∈ targets ∨ (toExit = true ∧ id = Graph.exit) ∨ ∃ h' ∈ h :: outer, h'.HasEntry id :=
          fun hid =>
      (mem_offer hid).imp_right fun hc => Or.inr ⟨h, List.mem_cons_self, Or.inl hc⟩
    by_cases hr : (offer types h.catches thrown targets).1 = []
    · rw [through_cons_done hr] at hid
      exact here hid
    · cases hf : h.finalizer with
      | none =>
        rw [through_cons_none hr hf] at hid
        rcases ih hid with hid | hid | ⟨h', hm, hc⟩
        · exact here hid
        · exact Or.inr (Or.inl hid)
        · exact Or.inr (Or.inr ⟨h', List.mem_cons_of_mem _ hm, hc⟩)
      | some entry =>
        rw [through_cons_some hr hf] at hid
        rcases mem_appendNew.mp hid with hid | rfl
        · exact here hid
        · exact Or.inr (Or.inr ⟨h, List.mem_cons_self, Or.inr hf⟩)

/-- An exception that may end the method has somewhere to go. -/
theorem targets_ne_nil (hs : List Handler) (ht : thrown ≠ [] ∨ targets ≠ []) :
    (through types true hs thrown targets).targets ≠ [] := by
  induction hs generalizing thrown targets with
  | nil =>
    simp only [through, Bool.true_and]
    split
    · exact List.append_ne_nil_of_right_ne_nil _ (List.cons_ne_nil _ _)
    · rename_i hn
      rcases ht with ht | ht
      · exact absurd (by rw [List.isEmpty_eq_false_iff.mpr ht]; rfl) hn
      · exact ht
  | cons h outer ih =>
    by_cases hr : (offer types h.catches thrown targets).1 = []
    · rw [through_cons_done hr]
      exact offer_ne_nil ht hr
    · cases hf : h.finalizer with
      | none =>
        rw [through_cons_none hr hf]
        exact ih (Or.inl hr)
      | some entry =>
        rw [through_cons_some hr hf]
        exact List.ne_nil_of_mem (mem_appendNew.mpr (Or.inr rfl))

/-- With more types and more targets before there are more of both afterwards. -/
theorem offer_mono (types : Subtyping) (clauses : List CatchTarget) {thrown thrown' : List TypeName}
    {targets targets' : List BlockId} (ht : thrown ⊆ thrown') (htargets : targets ⊆ targets') :
    (offer types clauses thrown targets).1 ⊆ (offer types clauses thrown' targets').1 ∧
      (offer types clauses thrown targets).2 ⊆ (offer types clauses thrown' targets').2 := by
  induction clauses generalizing thrown thrown' targets targets' with
  | nil => exact ⟨ht, htargets⟩
  | cons c clauses ih =>
    refine ih (List.filter_subset _ ht) fun id hid => ?_
    by_cases hm : thrown.any (c.mayReceive types) = true
    · obtain ⟨T, hT, hr⟩ := List.any_eq_true.mp hm
      rw [if_pos hm] at hid
      rw [if_pos (List.any_eq_true.mpr ⟨T, ht hT, hr⟩)]
      exact mem_appendNew.mpr ((mem_appendNew.mp hid).imp_left fun h => htargets h)
    · rw [if_neg hm] at hid
      split
      · exact mem_appendNew.mpr (Or.inl (htargets hid))
      · exact htargets hid

/-- A type that no clause receives for certain gets past all of them. -/
theorem mem_offer_fst {clauses : List CatchTarget} {T : TypeName} (targets : List BlockId)
    (hT : T ∈ thrown) (hpass : ∀ c ∈ clauses, c.receivesAll types T = false) :
      T ∈ (offer types clauses thrown targets).1 := by
  induction clauses generalizing thrown targets with
  | nil => exact hT
  | cons c clauses ih =>
    refine ih _ (List.mem_filter.mpr ⟨hT, ?_⟩) fun c' hc => hpass c' (List.mem_cons_of_mem _ hc)
    rw [hpass c List.mem_cons_self]
    rfl

/-- With more targets before there are more afterwards, and the exit counts if it is of interest. -/
theorem targets_mono (hs : List Handler) {toExit' : Bool} {targets' : List BlockId}
    (htargets : targets ⊆ targets') (hexit : toExit = true → toExit' = true) :
    (through types toExit hs thrown targets).targets ⊆
      (through types toExit' hs thrown targets').targets := by
  induction hs generalizing thrown targets targets' with
  | nil =>
    intro id hid
    simp only [through] at hid ⊢
    by_cases he : (toExit && !thrown.isEmpty) = true
    · rw [if_pos he] at hid
      rw [Bool.and_eq_true] at he
      rw [if_pos (by rw [hexit he.1, he.2]; rfl)]
      exact (List.append_subset.mpr ⟨List.subset_append_of_subset_left _ htargets,
        List.subset_append_right _ _⟩) hid
    · rw [if_neg he] at hid
      split
      · exact List.mem_append_left _ (htargets hid)
      · exact htargets hid
  | cons h outer ih =>
    -- Which types get past the clauses does not depend on the targets so far.
    have hfst := offer_fst types h.catches thrown targets targets'
    have hsnd := (offer_mono types h.catches (List.Subset.refl thrown) htargets).2
    by_cases hr : (offer types h.catches thrown targets).1 = []
    · rw [through_cons_done hr, through_cons_done (hfst ▸ hr)]
      exact hsnd
    · have hr' : (offer types h.catches thrown targets').1 ≠ [] := hfst ▸ hr
      cases hf : h.finalizer with
      | none =>
        rw [through_cons_none hr hf, through_cons_none hr' hf, hfst]
        exact ih hsnd
      | some entry =>
        rw [through_cons_some hr hf, through_cons_some hr' hf]
        intro id hid
        exact mem_appendNew.mpr ((mem_appendNew.mp hid).imp_left fun h => hsnd h)

/-- The targets found before are among those of the route. -/
theorem subset_targets (types : Subtyping) (toExit : Bool) (hs : List Handler)
    (thrown : List TypeName) (targets : List BlockId) :
      targets ⊆ (through types toExit hs thrown targets).targets := by
  induction hs generalizing thrown targets with
  | nil =>
    simp only [through]
    split
    · exact List.subset_append_left _ _
    · exact List.Subset.refl _
  | cons h outer ih =>
    have hsub := subset_offer types h.catches thrown targets
    by_cases hr : (offer types h.catches thrown targets).1 = []
    · rw [through_cons_done hr]
      exact hsub
    · cases hf : h.finalizer with
      | none =>
        rw [through_cons_none hr hf]
        exact List.Subset.trans hsub (ih _ _)
      | some entry =>
        rw [through_cons_some hr hf]
        exact fun id hid => mem_appendNew.mpr (Or.inl (hsub hid))

/-- Exceptions come to every clause of the innermost `try` statement that may receive one of
them. -/
theorem offer_subset_targets :
    (offer types h.catches thrown targets).2 ⊆
    (through types toExit (h :: outer) thrown targets).targets := by
  by_cases hr : (offer types h.catches thrown targets).1 = []
  · rw [through_cons_done hr]
    exact List.Subset.refl _
  · cases hf : h.finalizer with
    | none =>
      rw [through_cons_none hr hf]
      exact subset_targets ..
    | some entry =>
      rw [through_cons_some hr hf]
      exact fun id hid => mem_appendNew.mpr (Or.inl hid)

/-- Without clauses and without a `finally` clause a handler does nothing. -/
theorem through_bare_none (ht : thrown ≠ []) :
    through types toExit (⟨[], none⟩ :: outer) thrown [] = through types toExit outer thrown [] :=
  through_cons_none (h := ⟨[], none⟩) ht rfl

/-- Without clauses exceptions come to the `finally` clause only, and are then thrown again. -/
theorem through_bare_some (ht : thrown ≠ []) (entry : BlockId) :
    through types toExit (⟨[], some entry⟩ :: outer) thrown [] =
      ⟨[entry], (through types true outer thrown []).resumptions ++
        (through types true outer thrown []).targets.map fun target =>
        (entry, .exceptional target)⟩ :=
  through_cons_some (h := ⟨[], some entry⟩) ht rfl

/-- What gets past the clauses goes on as if they were not there. -/
theorem through_past (toExit : Bool) (outer : List Handler)
    (hr : (offer types h.catches thrown []).1 ≠ []) :
    (through types toExit (⟨[], h.finalizer⟩ :: outer) (offer types h.catches thrown []).1
      []).targets ⊆
        (through types toExit (h :: outer) thrown []).targets ∧
      (through types toExit (⟨[], h.finalizer⟩ :: outer) (offer types h.catches thrown []).1
        []).resumptions =
        (through types toExit (h :: outer) thrown []).resumptions := by
  cases hf : h.finalizer with
  | none =>
    rw [through_cons_none hr hf, through_bare_none hr]
    exact ⟨targets_mono outer (List.nil_subset _) id, resumptions_through ..⟩
  | some entry =>
    rw [through_cons_some hr hf, through_bare_some hr]
    exact ⟨fun id hid => mem_appendNew.mpr (Or.inr (List.mem_singleton.mp hid)), rfl⟩

/-- The resumptions of a route are rethrows at the innermost `finally` clause and those further
out. -/
theorem mem_resumptions_cons {p : BlockId × Edge}
    (hp : p ∈ (through types toExit (h :: outer) thrown []).resumptions) :
    ∃ rest, (h.finalizer = some p.1 ∧ p.2 ∈ (through types true outer rest []).edges) ∨
      p ∈ (through types true outer rest []).resumptions := by
  by_cases hr : (offer types h.catches thrown []).1 = []
  · rw [through_cons_done hr] at hp
    exact nomatch hp
  · refine ⟨(offer types h.catches thrown []).1, ?_⟩
    cases hf : h.finalizer with
    | none =>
      rw [through_cons_none hr hf, resumptions_through types toExit true outer _ _ []] at hp
      exact Or.inr hp
    | some entry =>
      rw [through_cons_some hr hf] at hp
      rcases List.mem_append.mp hp with hp | hp
      · exact Or.inr hp
      · obtain ⟨target, ht, rfl⟩ := List.mem_map.mp hp
        exact Or.inl ⟨rfl, List.mem_map.mpr ⟨target, ht, rfl⟩⟩

/-- Exceptions lead to handlers on the way or to the exit. -/
theorem mem_edges {e : Edge} (he : e ∈ (through types toExit hs thrown []).edges) :
    ∃ id, e = .exceptional id ∧ (id = Graph.exit ∨ ∃ h ∈ hs, h.HasEntry id) := by
  obtain ⟨id, hid, rfl⟩ := List.mem_map.mp he
  rcases mem_targets hid with hid | hid
  · exact nomatch hid
  · exact ⟨id, rfl, hid.imp_left And.right⟩

/-- Resumptions belong to `finally` clauses on the way, and rethrow to a handler or out of the
method. -/
theorem mem_resumptions {p : BlockId × Edge}
    (hp : p ∈ (through types toExit hs thrown []).resumptions) :
    (∃ h ∈ hs, h.finalizer = some p.1) ∧
      ∃ id, p.2 = .exceptional id ∧ (id = Graph.exit ∨ ∃ h ∈ hs, h.HasEntry id) := by
  induction hs generalizing toExit thrown with
  | nil => exact nomatch hp
  | cons h outer ih =>
    have outward : ∀ {id : BlockId}, (id = Graph.exit ∨ ∃ h' ∈ outer, h'.HasEntry id) →
        id = Graph.exit ∨ ∃ h' ∈ h :: outer, h'.HasEntry id := by
      intro id hid
      refine hid.imp_right ?_
      rintro ⟨h', hm, he⟩
      exact ⟨h', List.mem_cons_of_mem _ hm, he⟩
    obtain ⟨rest, ⟨hf, he⟩ | hp⟩ := mem_resumptions_cons hp
    · obtain ⟨id, he, hid⟩ := mem_edges he
      exact ⟨⟨h, List.mem_cons_self, hf⟩, id, he, outward hid⟩
    · obtain ⟨⟨h₁, hm₁, hf₁⟩, id, he, hid⟩ := ih hp
      exact ⟨⟨h₁, List.mem_cons_of_mem _ hm₁, hf₁⟩, id, he, outward hid⟩

end ThrowRoute

namespace Scope

/-- The edge is how some jump or exception leaves its block in this scope. -/
inductive Leaves (scope : Scope) : Edge → Prop
  | breaking {target : Target} (h : target ∈ scope.targets) :
      scope.Leaves (scope.breakRoute target).edge
  | continuing {target : Target} {continueTo : BlockId} (h : target ∈ scope.targets)
      (hc : target.continueTo? = some continueTo) :
      scope.Leaves (scope.continueRoute target continueTo).edge
  | returning : scope.Leaves scope.returnRoute.edge
  | throwing {e : Edge} {toExit : Bool} {thrown : List TypeName}
      (h : e ∈ (ThrowRoute.through scope.types toExit scope.handlers thrown []).edges) :
      scope.Leaves e

/-- The pair is a resumption that some jump or exception in this scope needs. -/
inductive Registers (scope : Scope) : BlockId × Edge → Prop
  | breaking {target : Target} {p : BlockId × Edge} (h : target ∈ scope.targets)
      (hp : p ∈ (scope.breakRoute target).resumptions) : scope.Registers p
  | continuing {target : Target} {continueTo : BlockId} {p : BlockId × Edge}
      (h : target ∈ scope.targets) (hc : target.continueTo? = some continueTo)
      (hp : p ∈ (scope.continueRoute target continueTo).resumptions) : scope.Registers p
  | returning {p : BlockId × Edge} (hp : p ∈ scope.returnRoute.resumptions) : scope.Registers p
  | throwing {p : BlockId × Edge} {toExit : Bool} {thrown : List TypeName}
      (hp : p ∈ (ThrowRoute.through scope.types toExit scope.handlers thrown []).resumptions) :
      scope.Registers p

/-- The blocks that a scope names are still to come in a draft; only the next round of a loop may
begin at a header that is there already. -/
structure Fits (scope : Scope) (d : Draft) : Prop where
  entries : ∀ h ∈ scope.handlers, ∀ id, h.HasEntry id → d.Waiting id
  breaks : ∀ t ∈ scope.targets, d.Waiting t.breakTo
  rounds : ∀ t ∈ scope.targets, ∀ id, t.continueTo? = some id → d.Awaits id
  depth_le : ∀ t ∈ scope.targets, t.depth ≤ scope.handlers.length

/-- A jump out of a guard crosses it first. -/
theorem crossed_guarded {scope : Scope} {t : Target} (ht : t.depth ≤ scope.handlers.length)
    (h : Handler) : (scope.guarded h).crossed t = h :: scope.crossed t := by
  unfold crossed guarded
  rw [List.length_cons, Nat.succ_sub ht, List.take_succ_cons]

theorem crossed_subset (scope : Scope) (t : Target) : scope.crossed t ⊆ scope.handlers :=
  List.take_subset _ _

/-- Inside one more `try` statement, all that is added are resumptions of its own `finally` clause,
and they leave the scope around the statement. -/
theorem Registers.of_guarded {scope : Scope} {h : Handler} {p : BlockId × Edge}
    (depth_le : ∀ t ∈ scope.targets, t.depth ≤ scope.handlers.length)
    (hp : (scope.guarded h).Registers p) :
    h.finalizer = some p.1 ∧ scope.Leaves p.2 ∨ scope.Registers p := by
  cases hp with
  | @breaking t _ ht hp =>
    rw [breakRoute, crossed_guarded (depth_le t ht)] at hp
    rcases JumpRoute.mem_resumptions_cons hp with ⟨hf, he⟩ | hp
    · exact Or.inl ⟨hf, he ▸ .breaking ht⟩
    · exact Or.inr (.breaking ht hp)
  | @continuing t _ _ ht hc hp =>
    rw [continueRoute, crossed_guarded (depth_le t ht)] at hp
    rcases JumpRoute.mem_resumptions_cons hp with ⟨hf, he⟩ | hp
    · exact Or.inl ⟨hf, he ▸ .continuing ht hc⟩
    · exact Or.inr (.continuing ht hc hp)
  | returning hp =>
    rcases JumpRoute.mem_resumptions_cons hp with ⟨hf, he⟩ | hp
    · exact Or.inl ⟨hf, he ▸ .returning⟩
    · exact Or.inr (.returning hp)
  | throwing hp =>
    obtain ⟨rest, ⟨hf, he⟩ | hp⟩ := ThrowRoute.mem_resumptions_cons hp
    · exact Or.inl ⟨hf, .throwing he⟩
    · exact Or.inr (.throwing hp)

/-- A loop, a `switch` or a label adds no resumptions: jumps to it cross no more than the
statement. -/
theorem Registers.of_inside {scope : Scope} {labels : List String} {kind : TargetKind}
    {breakTo : BlockId} {p : BlockId × Edge} (hp : (scope.inside labels kind breakTo).Registers p) :
    scope.Registers p := by
  have hcrossed : scope.crossed ⟨labels, kind, breakTo, scope.handlers.length⟩ = [] := by
    unfold crossed
    rw [Nat.sub_self, List.take_zero]
  cases hp with
  | @breaking t _ ht hp =>
    rcases List.mem_cons.mp ht with rfl | ht
    · change p ∈ (JumpRoute.through _ (scope.crossed _)).resumptions at hp
      rw [hcrossed] at hp
      exact nomatch hp
    · exact .breaking ht hp
  | @continuing t _ _ ht hc hp =>
    rcases List.mem_cons.mp ht with rfl | ht
    · change p ∈ (JumpRoute.through _ (scope.crossed _)).resumptions at hp
      rw [hcrossed] at hp
      exact nomatch hp
    · exact .continuing ht hc hp
  | returning hp => exact .returning hp
  | throwing hp => exact .throwing hp

/-- A block that a scope names, or the exit. -/
def Names (scope : Scope) (id : BlockId) : Prop :=
  id = Graph.exit ∨ (∃ h ∈ scope.handlers, h.HasEntry id) ∨
    ∃ t ∈ scope.targets, t.breakTo = id ∨ t.continueTo? = some id

/-- Blocks that a fitting scope names are awaited. -/
theorem Fits.awaits {scope : Scope} {d : Draft} (hfit : scope.Fits d) {id : BlockId}
    (h : scope.Names id) : d.Awaits id := by
  rcases h with h | ⟨h, hm, he⟩ | ⟨t, hm, rfl | hc⟩
  · exact Or.inl h
  · exact Or.inr (Or.inl (hfit.entries h hm id he))
  · exact Or.inr (Or.inl (hfit.breaks t hm))
  · exact hfit.rounds t hm id hc

theorem Fits.lt {scope : Scope} {d : Draft} (hfit : scope.Fits d) {id : BlockId}
    (h : scope.Names id) : id < d.fresh :=
  (hfit.awaits h).lt

/-- A scope fits inside a target when the blocks of the target are still to come. -/
theorem Fits.inside {scope : Scope} {d : Draft} (hfit : scope.Fits d) (labels : List String)
    (kind : TargetKind) {breakTo : BlockId} (hbreak : d.Waiting breakTo)
    (hround : ∀ id, kind = .loop id → d.Awaits id) : (scope.inside labels kind breakTo).Fits d := by
  refine ⟨hfit.entries, fun t ht => ?_, fun t ht id hc => ?_, fun t ht => ?_⟩
  · rcases List.mem_cons.mp ht with rfl | ht
    · exact hbreak
    · exact hfit.breaks t ht
  · rcases List.mem_cons.mp ht with rfl | ht
    · cases kind with
      | loop next => exact hround id (congrArg TargetKind.loop (Option.some.inj hc))
      | switch | labeled => exact nomatch hc
    · exact hfit.rounds t ht id hc
  · rcases List.mem_cons.mp ht with rfl | ht
    · exact Nat.le_refl _
    · exact hfit.depth_le t ht

theorem Fits.inside_loop {scope : Scope} {d : Draft} (hfit : scope.Fits d) (labels : List String)
    {next breakTo : BlockId} (hnext : d.Awaits next) (hbreak : d.Waiting breakTo) :
    (scope.inside labels (.loop next) breakTo).Fits d := by
  refine hfit.inside labels (.loop next) hbreak fun id hk => ?_
  cases hk
  exact hnext

/-- A scope fits inside a `try` statement when its handlers are still to come. -/
theorem Fits.guarded {scope : Scope} {d : Draft} (hfit : scope.Fits d) {handler : Handler}
    (hentry : ∀ id, handler.HasEntry id → d.Waiting id) : (scope.guarded handler).Fits d := by
  refine ⟨fun h hm => ?_, hfit.breaks, hfit.rounds, fun t ht => ?_⟩
  · rcases List.mem_cons.mp hm with rfl | hm
    · exact hentry
    · exact hfit.entries h hm
  · exact Nat.le_succ_of_le (hfit.depth_le t ht)

/-- A scope fits as long as the blocks that it names go on waiting. -/
theorem Fits.of_run {scope : Scope} {d d' : Draft} (hfit : scope.Fits d)
    (hd : d.Steady) (hrun : Draft.Run d d')
    (keep : ∀ id, scope.Names id → d.Waiting id → d'.Waiting id) : scope.Fits d' := by
  refine ⟨fun handler hm id he => ?_, fun t ht => ?_, fun t ht id hc => ?_, hfit.depth_le⟩
  · exact keep id (Or.inr (Or.inl ⟨handler, hm, he⟩)) (hfit.entries handler hm id he)
  · exact keep _ (Or.inr (Or.inr ⟨t, ht, Or.inl rfl⟩)) (hfit.breaks t ht)
  · rcases hfit.rounds t ht id hc with hid | hid | hid
    · exact Or.inl hid
    · exact Or.inr (Or.inl (keep id (Or.inr (Or.inr ⟨t, ht, Or.inr hc⟩)) hid))
    · exact Or.inr (Or.inr ((hrun.extends hd).isLoopHeader hid))

theorem Names.of_inside {scope : Scope} {labels : List String} {kind : TargetKind}
    {breakTo id : BlockId} (h : (scope.inside labels kind breakTo).Names id) :
    scope.Names id ∨ id = breakTo ∨ kind = .loop id := by
  rcases h with h | h | ⟨t, ht, hid⟩
  · exact Or.inl (Or.inl h)
  · exact Or.inl (Or.inr (Or.inl h))
  · rcases List.mem_cons.mp ht with rfl | ht
    · rcases hid with rfl | hid
      · exact Or.inr (Or.inl rfl)
      · cases kind with
        | loop next => exact Or.inr (Or.inr (congrArg TargetKind.loop (Option.some.inj hid)))
        | switch | labeled => exact nomatch hid
    · exact Or.inl (Or.inr (Or.inr ⟨t, ht, hid⟩))

theorem Names.of_guarded {scope : Scope} {handler : Handler} {id : BlockId}
    (h : (scope.guarded handler).Names id) : scope.Names id ∨ handler.HasEntry id := by
  rcases h with h | ⟨h, hm, he⟩ | h
  · exact Or.inl (Or.inl h)
  · rcases List.mem_cons.mp hm with rfl | hm
    · exact Or.inr he
    · exact Or.inl (Or.inr (Or.inl ⟨h, hm, he⟩))
  · exact Or.inl (Or.inr (Or.inr h))

private theorem names_of_jump {scope : Scope} {hs : List Handler} (hsub : hs ⊆ scope.handlers)
    {final e : Edge} (hfinal : scope.Names final.target)
    (he : e = final ∨ ∃ h ∈ hs, ∃ entry, h.finalizer = some entry ∧ e = .sequential entry) :
    scope.Names e.target := by
  rcases he with rfl | ⟨h, hm, entry, hf, rfl⟩
  · exact hfinal
  · exact Or.inr (Or.inl ⟨h, hsub hm, Or.inr hf⟩)

private theorem names_of_throw {scope : Scope} {e : Edge}
    (he : ∃ id, e = .exceptional id ∧ (id = Graph.exit ∨ ∃ h ∈ scope.handlers, h.HasEntry id)) :
    scope.Names e.target := by
  obtain ⟨id, rfl, rfl | h⟩ := he
  · exact Or.inl rfl
  · exact Or.inr (Or.inl h)

/-- Every edge out of a scope leads to a block that the scope names. -/
theorem Leaves.names {scope : Scope} {e : Edge} (h : scope.Leaves e) : scope.Names e.target := by
  cases h with
  | @breaking t ht =>
    exact names_of_jump (scope.crossed_subset t) (Or.inr (Or.inr ⟨t, ht, Or.inl rfl⟩))
      (JumpRoute.edge_through _ _)
  | @continuing t c ht hc =>
    exact names_of_jump (scope.crossed_subset t) (Or.inr (Or.inr ⟨t, ht, Or.inr hc⟩))
      (JumpRoute.edge_through _ _)
  | returning => exact names_of_jump (fun _ h => h) (Or.inl rfl) (JumpRoute.edge_through _ _)
  | throwing he => exact names_of_throw (ThrowRoute.mem_edges he)

/-- Every resumption needed in a scope leads to a block that the scope names. -/
theorem Registers.names {scope : Scope} {p : BlockId × Edge} (h : scope.Registers p) :
    scope.Names p.2.target := by
  cases h with
  | @breaking t _ ht hp =>
    exact names_of_jump (scope.crossed_subset t) (Or.inr (Or.inr ⟨t, ht, Or.inl rfl⟩))
      (JumpRoute.mem_resumptions hp).2
  | @continuing t c _ ht hc hp =>
    exact names_of_jump (scope.crossed_subset t) (Or.inr (Or.inr ⟨t, ht, Or.inr hc⟩))
      (JumpRoute.mem_resumptions hp).2
  | returning hp =>
    exact names_of_jump (fun _ h => h) (Or.inl rfl) (JumpRoute.mem_resumptions hp).2
  | throwing hp => exact names_of_throw (ThrowRoute.mem_resumptions hp).2

/-- Resumptions are kept for the `finally` clauses of the scope. -/
theorem Registers.finalizer {scope : Scope} {p : BlockId × Edge} (h : scope.Registers p) :
    ∃ h ∈ scope.handlers, h.finalizer = some p.1 := by
  cases h with
  | @breaking t _ _ hp | @continuing t _ _ _ _ hp =>
    obtain ⟨h, hm, hf⟩ := (JumpRoute.mem_resumptions hp).1
    exact ⟨h, scope.crossed_subset t hm, hf⟩
  | returning hp => exact (JumpRoute.mem_resumptions hp).1
  | throwing hp => exact (ThrowRoute.mem_resumptions hp).1

theorem labelTarget_mem {scope : Scope} {label : String} {line : UInt32} {t : Target}
    (h : scope.labelTarget label line = .ok t) : t ∈ scope.targets := by
  unfold labelTarget at h
  split at h
  · rename_i found hfound
    rw [← Except.ok.inj h]
    exact List.mem_of_find?_eq_some hfound
  · exact nomatch h

theorem breakTarget_mem {scope : Scope} {label : Option String} {line : UInt32} {t : Target}
    (h : scope.breakTarget label line = .ok t) : t ∈ scope.targets := by
  unfold breakTarget at h
  split at h
  · exact labelTarget_mem h
  · split at h
    · rename_i found hfound
      rw [← Except.ok.inj h]
      exact List.mem_of_find?_eq_some hfound
    · exact nomatch h

/-- A `continue` finds one of the loops around it. -/
theorem continueTarget_mem {scope : Scope} {label : Option String} {line : UInt32} {t : Target}
    {continueTo : BlockId} (h : scope.continueTarget label line = .ok (t, continueTo)) :
    t ∈ scope.targets ∧ t.continueTo? = some continueTo := by
  unfold continueTarget at h
  split at h
  · obtain ⟨t', ht', h⟩ := Except.of_bind_ok h
    split at h
    · rename_i c hc
      obtain ⟨rfl, rfl⟩ := Prod.mk.inj (Except.ok.inj h)
      exact ⟨labelTarget_mem ht', hc⟩
    · cases h
  · split at h
    · rename_i found hfound
      rw [Except.ok.inj h] at hfound
      obtain ⟨t', hm, hmap⟩ := List.exists_of_findSome?_eq_some hfound
      obtain ⟨c, hround, he⟩ := Option.map_eq_some_iff.mp hmap
      obtain ⟨rfl, rfl⟩ := Prod.mk.inj he
      exact ⟨hm, hround⟩
    · cases h

/-- No edge out of a scope is a branch of its own. -/
theorem Leaves.kind {scope : Scope} {e : Edge} (h : scope.Leaves e) :
    e.kind = .sequential ∨ e.kind = .loopBack ∨ e.kind = .exceptional := by
  cases h with
  | @breaking t ht =>
    rcases JumpRoute.edge_through (.sequential t.breakTo) (scope.crossed t) with h | ⟨_, _, _, _, h⟩
    · exact Or.inl (congrArg (·.kind) h)
    · exact Or.inl (congrArg (·.kind) h)
  | @continuing t c ht hc =>
    rcases JumpRoute.edge_through (.loopBack c) (scope.crossed t) with h | ⟨_, _, _, _, h⟩
    · exact Or.inr (Or.inl (congrArg (·.kind) h))
    · exact Or.inl (congrArg (·.kind) h)
  | returning =>
    rcases JumpRoute.edge_through (.sequential Graph.exit) scope.handlers with h | ⟨_, _, _, _, h⟩
    · exact Or.inl (congrArg (·.kind) h)
    · exact Or.inl (congrArg (·.kind) h)
  | throwing he =>
    obtain ⟨id, rfl, _⟩ := ThrowRoute.mem_edges he
    exact Or.inr (Or.inr rfl)

end Scope

end MethodFlow
