import MethodFlow.Proofs.Sites

/-!
# Where exceptions of one type go

`ThrowRoute.through` takes all types that a piece of code may throw through the handlers together:
one list of types gets shorter from clause to clause, and at a `finally` clause a route of its own
is taken for what is left. Here each type is followed by itself. `Handler.destinations` are the
blocks that it may come to, and `Handler.pending` is what it leaves with the `finally` clauses on
its way.

The pass over all types finds what the passes over the single ones find together, so it makes no
difference in which order, or how often, types are listed.

Main result: `ThrowRoute.through_destinations`.
-/

namespace MethodFlow

/-! ## One type at a time -/

namespace Handler

variable (types : Subtyping) (thrown : TypeName)

/-- The clauses that an exception of a type is offered to, in order: the first one that receives
every such exception is the last. -/
def offered : List CatchTarget → List CatchTarget
  | [] => []
  | clause :: clauses => clause :: if clause.receivesAll types thrown then [] else offered clauses

/-- The entries of the clauses that may receive an exception of a type. -/
def takers (handler : Handler) : List BlockId :=
  ((offered types thrown handler.catches).filter (·.mayReceive types thrown)).map (·.entry)

/-- No exception of a type gets past the clauses. -/
def stops (handler : Handler) : Bool := handler.catches.any (·.receivesAll types thrown)

/-- The blocks that an exception of a type may come to from inside handlers, innermost first. -/
def destinations (toExit : Bool) : List Handler → List BlockId
  | [] => if toExit then [Graph.exit] else []
  | handler :: outer =>
    handler.takers types thrown ++
      if handler.stops types thrown then []
      else
        match handler.finalizer with
        | some entry => [entry]
        | none => destinations toExit outer

/-- What an exception of a type leaves with the `finally` clauses: each of them sends it on to where
it may come to from there, and that may be the exit. -/
def pending : List Handler → List (BlockId × Edge)
  | [] => []
  | handler :: outer =>
    if handler.stops types thrown then []
    else
      match handler.finalizer with
      | some entry =>
        (destinations types thrown true outer).map (fun target => (entry, .exceptional target)) ++
          pending outer
      | none => pending outer

variable {types} {thrown}

/-- Takers are the clauses that are offered a type and may receive it. -/
theorem mem_takers {handler : Handler} {id : BlockId} :
    id ∈ handler.takers types thrown ↔
      ∃ c ∈ offered types thrown handler.catches, c.mayReceive types thrown = true ∧
        c.entry = id := by
  simp only [takers, List.mem_map, List.mem_filter, and_assoc]

theorem stops_eq_false_iff {handler : Handler} :
    handler.stops types thrown = false ↔ ∀ c ∈ handler.catches,
      c.receivesAll types thrown = false := by
  simp only [stops, List.any_eq_false, Bool.not_eq_true]

theorem mem_pending_cons {handler : Handler} {outer : List Handler} {entry : BlockId}
    {p : BlockId × Edge} (hpass : handler.stops types thrown = false)
    (hf : handler.finalizer = some entry) :
    p ∈ pending types thrown (handler :: outer) ↔
      p ∈ pending types thrown outer ∨
        ∃ target ∈ destinations types thrown true outer, (entry, .exceptional target) = p := by
  rw [pending, hpass, hf, if_neg Bool.false_ne_true, List.mem_append, List.mem_map]
  exact or_comm

end Handler

namespace ThrowRoute

open Handler (offered destinations pending)

variable {types : Subtyping} {clauses : List CatchTarget} {handlers : List Handler}
    {thrown thrown' : List TypeName}
  {targets : List BlockId} {toExit : Bool} {id : BlockId}

/-! ## The clauses of one statement -/

/-- A type goes on past clauses that certainly receive it nowhere. -/
theorem mem_offer_fst_iff {T : TypeName} :
    T ∈ (offer types clauses thrown targets).1 ↔ T ∈ thrown ∧ ∀ c ∈ clauses,
      c.receivesAll types T = false := by
  induction clauses generalizing thrown targets with
  | nil => simp [offer]
  | cons c clauses ih => simp [offer, ih, and_assoc]

/-- A clause is found by the pass over all types if it is offered one that it may receive. -/
theorem mem_offer_snd_iff :
    id ∈ (offer types clauses thrown targets).2 ↔
      id ∈ targets ∨ ∃ T ∈ thrown, ∃ c ∈ offered types T clauses, c.mayReceive types T = true ∧
        c.entry = id := by
  induction clauses generalizing thrown targets with
  | nil => simp [offer, offered]
  | cons c clauses ih =>
    rw [offer, ih]
    have hhere : (id ∈ if thrown.any (c.mayReceive types) then appendNew targets c.entry
      else targets) ↔
        id ∈ targets ∨ ∃ T ∈ thrown, c.mayReceive types T = true ∧ c.entry = id := by
      split
      · rename_i hany
        obtain ⟨T, hT, hmay⟩ := List.any_eq_true.mp hany
        rw [mem_appendNew]
        refine or_congr_right ⟨fun he => ⟨T, hT, hmay, he.symm⟩, ?_⟩
        rintro ⟨_, _, _, he⟩
        exact he.symm
      · rename_i hany
        refine ⟨Or.inl, ?_⟩
        rintro (hid | ⟨T, hT, hmay, _⟩)
        · exact hid
        · exact absurd (List.any_eq_true.mpr ⟨T, hT, hmay⟩) hany
    rw [hhere, or_assoc]
    refine or_congr_right ?_
    -- a type is offered to this clause, and to those after it unless this one receives it for
    -- certain
    constructor
    · rintro (⟨T, hT, hmay, he⟩ | ⟨T, hT, c', hc', hmay, he⟩)
      · exact ⟨T, hT, c, List.mem_cons_self, hmay, he⟩
      · obtain ⟨hT, hpass⟩ := List.mem_filter.mp hT
        refine ⟨T, hT, c', List.mem_cons_of_mem _ ?_, hmay, he⟩
        rw [if_neg (by simpa using hpass)]
        exact hc'
    · rintro ⟨T, hT, c', hc', hmay, he⟩
      rcases List.mem_cons.mp hc' with rfl | hc'
      · exact Or.inl ⟨T, hT, hmay, he⟩
      · split at hc'
        · exact absurd hc' List.not_mem_nil
        · rename_i hpass
          exact Or.inr ⟨T, List.mem_filter.mpr ⟨hT, by simpa using hpass⟩, c', hc', hmay, he⟩

/-! ## Handlers one after the other -/

/-- What gets past the clauses of the innermost handler. -/
theorem offer_fst_eq_nil_iff {handler : Handler} :
    (offer types handler.catches thrown targets).1 = [] ↔
      ∀ T ∈ thrown, handler.stops types T = true := by
  rw [List.eq_nil_iff_forall_not_mem]
  simp only [mem_offer_fst_iff, ← Handler.stops_eq_false_iff, not_and, Bool.not_eq_false]

/-- The targets of a throw are the destinations of each type it throws. -/
theorem mem_targets_iff :
    id ∈ (through types toExit handlers thrown targets).targets ↔
      id ∈ targets ∨ ∃ T ∈ thrown, id ∈ destinations types T toExit handlers := by
  induction handlers generalizing thrown targets with
  | nil =>
    cases toExit with
    | false => simp [through, destinations]
    | true => cases thrown <;> simp [through, destinations]
  | cons handler outer ih =>
    have hoffer : id ∈ (offer types handler.catches thrown targets).2 ↔
        id ∈ targets ∨ ∃ T ∈ thrown, id ∈ handler.takers types T := by
      simp only [Handler.mem_takers]
      exact mem_offer_snd_iff
    have hpast : ∀ T, T ∈ (offer types handler.catches thrown targets).1 ↔
        T ∈ thrown ∧ handler.stops types T = false := fun T => by
      rw [mem_offer_fst_iff, Handler.stops_eq_false_iff]
    simp only [destinations, List.mem_append, and_or_left, exists_or, ← or_assoc, ← hoffer]
    -- If the clauses stop every type the throw ends here; otherwise the rest goes on outside.
    by_cases hr : (offer types handler.catches thrown targets).1 = []
    · rw [through_cons_done hr, iff_self_or]
      rintro ⟨T, hT, hid⟩
      rw [if_pos (offer_fst_eq_nil_iff.mp hr T hT)] at hid
      exact absurd hid List.not_mem_nil
    · cases hf : handler.finalizer with
      | none =>
        rw [through_cons_none hr hf, ih]
        refine or_congr_right (exists_congr fun T => ?_)
        rw [hpast, and_assoc]
        refine and_congr_right fun _ => ?_
        cases handler.stops types T <;> simp
      | some entry =>
        rw [through_cons_some hr hf, mem_appendNew]
        refine or_congr_right ?_
        constructor
        · rintro rfl
          obtain ⟨T, hT⟩ := List.exists_mem_of_ne_nil _ hr
          obtain ⟨hT, hpass⟩ := (hpast T).mp hT
          exact ⟨T, hT, by simp [hpass]⟩
        · rintro ⟨T, _, hid⟩
          split at hid
          · exact absurd hid List.not_mem_nil
          · exact List.mem_singleton.mp hid

/-- The resumptions of a throw are those pending for each type it throws. -/
theorem mem_resumptions_iff {p : BlockId × Edge} :
    p ∈ (through types toExit handlers thrown targets).resumptions ↔
      ∃ T ∈ thrown, p ∈ pending types T handlers := by
  induction handlers generalizing toExit thrown targets with
  | nil => simp [through, pending]
  | cons handler outer ih =>
    have hpast : ∀ T, T ∈ (offer types handler.catches thrown targets).1 ↔
        T ∈ thrown ∧ handler.stops types T = false := fun T => by
      rw [mem_offer_fst_iff, Handler.stops_eq_false_iff]
    by_cases hr : (offer types handler.catches thrown targets).1 = []
    · rw [through_cons_done hr]
      refine ⟨fun hp => absurd hp List.not_mem_nil, ?_⟩
      rintro ⟨T, hT, hp⟩
      rw [pending, if_pos (offer_fst_eq_nil_iff.mp hr T hT)] at hp
      exact absurd hp List.not_mem_nil
    · -- only the types that get past the clauses leave something
      have hleft : (∃ T ∈ thrown, p ∈ pending types T (handler :: outer)) ↔
          ∃ T ∈ (offer types handler.catches thrown targets).1,
            p ∈ pending types T (handler :: outer) := by
        refine exists_congr fun T => ?_
        rw [hpast, and_assoc]
        refine and_congr_right fun _ => ?_
        cases hs : handler.stops types T <;> simp [pending, hs]
      have hgone : ∀ T ∈ (offer types handler.catches thrown targets).1,
          handler.stops types T = false :=
        fun T hT => ((hpast T).mp hT).2
      rw [hleft]
      cases hf : handler.finalizer with
      | none =>
        rw [through_cons_none hr hf, ih]
        refine exists_congr fun T => and_congr_right fun hT => ?_
        simp [pending, hgone T hT, hf]
      | some entry =>
        rw [through_cons_some hr hf, List.mem_append, ih, List.mem_map]
        simp only [mem_targets_iff, List.not_mem_nil, false_or]
        constructor
        · rintro (⟨T, hT, hp⟩ | ⟨target, ⟨T, hT, ht⟩, he⟩)
          · exact ⟨T, hT, (Handler.mem_pending_cons (hgone T hT) hf).mpr (Or.inl hp)⟩
          · exact ⟨T, hT, (Handler.mem_pending_cons (hgone T hT) hf).mpr (Or.inr ⟨target, ht, he⟩)⟩
        · rintro ⟨T, hT, hp⟩
          rcases (Handler.mem_pending_cons (hgone T hT) hf).mp hp with hp | ⟨target, ht, he⟩
          · exact Or.inl ⟨T, hT, hp⟩
          · exact Or.inr ⟨target, ⟨T, hT, ht⟩, he⟩

/-! ## Repetitions -/

theorem nodup_offer (h : targets.Nodup) : (offer types clauses thrown targets).2.Nodup := by
  induction clauses generalizing thrown targets with
  | nil => exact h
  | cons c clauses ih =>
    rw [offer]
    refine ih ?_
    split
    · exact nodup_appendNew h
    · exact h

/-- No block is listed twice, as long as the exit is not the entry of a handler. -/
theorem nodup_targets (hentries : ∀ handler ∈ handlers, ¬ handler.HasEntry Graph.exit)
    (h : targets.Nodup) (hexit : Graph.exit ∉ targets) :
    (through types toExit handlers thrown targets).targets.Nodup := by
  induction handlers generalizing thrown targets with
  | nil =>
    rw [through]
    dsimp only
    split
    · rw [List.nodup_append]
      refine ⟨h, by simp, ?_⟩
      rintro a ha b hb rfl
      rw [List.mem_singleton] at hb
      exact hexit (hb ▸ ha)
    · exact h
  | cons handler outer ih =>
    have hoffer : (offer types handler.catches thrown targets).2.Nodup := nodup_offer h
    have houter : ∀ h ∈ outer, ¬ h.HasEntry Graph.exit :=
      fun h hh => hentries h (List.mem_cons_of_mem _ hh)
    by_cases hr : (offer types handler.catches thrown targets).1 = []
    · rw [through_cons_done hr]
      exact hoffer
    · cases hf : handler.finalizer with
      | none =>
        rw [through_cons_none hr hf]
        refine ih houter hoffer fun hm => ?_
        rcases mem_offer hm with hm | hm
        · exact hexit hm
        · exact hentries handler List.mem_cons_self (Or.inl hm)
      | some entry =>
        rw [through_cons_some hr hf]
        exact nodup_appendNew hoffer

end ThrowRoute

/-! ## The handlers that routes are taken through -/

/-- No `try` statement takes the exit for one of its own blocks. -/
theorem Frame.not_hasEntry_exit (types : Subtyping) (frames : List Frame) :
    ∀ handler ∈ (Frame.scope types frames).handlers, ¬ handler.HasEntry Graph.exit := by
  have hnew : ∀ guard : Guard, ¬ guard.handler.HasEntry Graph.exit := by
    intro guard hentry
    have hlt : guard.after < Graph.exit := guard.hasEntry_handler hentry
    exact Nat.not_lt_of_le (Nat.le_of_succ_le guard.draft.graph.two_le_size) hlt
  induction frames with
  | nil => exact nofun
  | cons frame frames ih =>
    intro handler hm
    cases frame with
    | target => exact ih handler hm
    | tryBlock guard =>
      rcases List.mem_cons.mp hm with rfl | hm
      · exact hnew guard
      · exact ih handler hm
    | catchClause guard =>
      rcases List.mem_cons.mp hm with rfl | hm
      · rintro (⟨c, hc, _⟩ | hf)
        · exact absurd hc List.not_mem_nil
        · exact hnew guard (Or.inr hf)
      · exact ih handler hm

/-- While a body is drawn, exceptions are thrown from inside these handlers: those around one of its
statements or, for the resources of a `try` statement, also its own. From a `finally` clause an
exception goes on through those further out. -/
def Block.ThrowsWithin (types : Subtyping) (body : Block) (handlers : List Handler) : Prop :=
  ∃ site, body.Has types site ∧
    (handlers <:+ (site.scope types).handlers ∨
      ∃ guard, site.guard? types = some guard ∧ handlers <:+ guard.blockScope.handlers)

theorem Block.ThrowsWithin.not_hasEntry_exit {types : Subtyping} {body : Block}
    {handlers : List Handler} (h : body.ThrowsWithin types handlers) :
      ∀ handler ∈ handlers, ¬ handler.HasEntry Graph.exit := by
  obtain ⟨site, _, hs | ⟨guard, hg, hs⟩⟩ := h
  · intro handler hm
    exact Frame.not_hasEntry_exit types site.frames handler (hs.subset hm)
  · intro handler hm
    refine Frame.not_hasEntry_exit types (.tryBlock guard :: site.frames) handler ?_
    have hscope : guard.scope = Frame.scope types site.frames := (Site.of_guard? hg).1
    have hm := hs.subset hm
    rw [Guard.blockScope, hscope] at hm
    exact hm

open Handler (destinations pending)

/-- The exceptions that a piece of code may throw go where those of each single type go, and no
block is listed twice; the `finally` clauses are left exactly what each single type leaves them. So
only the set of types counts, with more types there are more blocks, and an exception that may end
the method always goes somewhere. -/
theorem ThrowRoute.through_destinations {types : Subtyping} {body : Block} {handlers : List Handler}
    (h : body.ThrowsWithin types handlers) (toExit : Bool) (thrown : List TypeName) :
    (through types toExit handlers thrown []).targets.Nodup ∧
    (∀ id, id ∈ (through types toExit handlers thrown []).targets ↔
      ∃ T ∈ thrown, id ∈ destinations types T toExit handlers) ∧
    (∀ (d : Draft) (entry : BlockId) (e : Edge),
      e ∈ (d.resumeAt (through types toExit handlers thrown []).resumptions).resumptionsOf entry ↔
        e ∈ d.resumptionsOf entry ∨ ∃ T ∈ thrown, (entry, e) ∈ pending types T handlers) ∧
    (∀ thrown' : List TypeName, (∀ T, T ∈ thrown ↔ T ∈ thrown') →
      ∀ id, id ∈ (through types toExit handlers thrown []).targets ↔
        id ∈ (through types toExit handlers thrown' []).targets) ∧
    (∀ thrown' : List TypeName, thrown ⊆ thrown' →
      (through types toExit handlers thrown []).targets ⊆
      (through types toExit handlers thrown' []).targets) ∧
    (thrown ≠ [] → toExit = true → (through types toExit handlers thrown []).targets ≠ []) := by
  -- The targets of a throw, as a set, are the destinations of its types.
  have hmem : ∀ (thrown : List TypeName) (id : BlockId),
      id ∈ (through types toExit handlers thrown []).targets ↔
        ∃ T ∈ thrown, id ∈ destinations types T toExit handlers := by
    intro thrown id
    rw [mem_targets_iff]
    simp only [List.not_mem_nil, false_or]
  refine ⟨nodup_targets h.not_hasEntry_exit List.nodup_nil List.not_mem_nil, hmem thrown,
    ?_, ?_, ?_, ?_⟩
  · intro d entry e
    have hof : ∀ d : Draft, e ∈ d.resumptionsOf entry ↔ (entry, e) ∈ d.resumptions := by
      intro d
      simp [Draft.resumptionsOf]
    rw [hof, hof, Draft.resumeAt, mem_appendAllNew, mem_resumptions_iff]
  · intro thrown' hsame id
    simp only [hmem, hsame]
  · intro thrown' hsub id hid
    obtain ⟨T, hT, hid⟩ := (hmem thrown id).mp hid
    exact (hmem thrown' id).mpr ⟨T, hsub hT, hid⟩
  · rintro hne rfl
    exact targets_ne_nil handlers (Or.inl hne)

/-- A call inside two `try` statements, the inner one with a `finally` clause. -/
def guardedCall : Block where
  stmts :=
    [.tryStmt []
      ⟨[.tryStmt [] ⟨[.expr (.call none "read" [] ["IOException"] {}) {}], {}⟩
          [⟨"e", ["FileNotFoundException"], ⟨[], {}⟩, {}⟩] (some ⟨[], {}⟩) {}], {}⟩
      [⟨"e", ["Exception"], ⟨[], {}⟩, {}⟩] none {}]
  span := {}

/-- The call inside the guard: where its exceptions go, for each type. -/
theorem ThrowRoute.through_destinations_guardedCall :
    ∃ handlers, guardedCall.ThrowsWithin ClassHierarchy.javaLang.subtyping handlers ∧
      (∀ id,
        id ∈
          (through ClassHierarchy.javaLang.subtyping true handlers ["IOException", "Error"]
            []).targets ↔
        id = 7 ∨ id = 6) ∧
      ∀ e, e ∈ (Draft.initial.resumeAt (through ClassHierarchy.javaLang.subtyping true handlers
          ["IOException", "Error"] []).resumptions).resumptionsOf 6 ↔
        e = .exceptional 3 ∨ e = .exceptional Graph.exit := by
  have hreached : guardedCall.ThrowsWithin ClassHierarchy.javaLang.subtyping
      [⟨[⟨7, ["FileNotFoundException"]⟩], some 6⟩, ⟨[⟨3, ["Exception"]⟩], none⟩] :=
    ⟨_, .part (.part (.top .head) (.inTry rfl .head)) (.inTry rfl .head),
      Or.inl (List.suffix_refl _)⟩
  obtain ⟨_, htargets, hresumed, _⟩ := through_destinations hreached true ["IOException", "Error"]
  refine ⟨_, hreached, fun id => ?_, fun e => ?_⟩
  · have hio : destinations ClassHierarchy.javaLang.subtyping "IOException" true
        [⟨[⟨7, ["FileNotFoundException"]⟩], some 6⟩, ⟨[⟨3, ["Exception"]⟩], none⟩] = [7, 6] := by
          decide +kernel
    have herror : destinations ClassHierarchy.javaLang.subtyping "Error" true
        [⟨[⟨7, ["FileNotFoundException"]⟩], some 6⟩, ⟨[⟨3, ["Exception"]⟩], none⟩] = [6] := by
          decide +kernel
    rw [htargets]
    simp [hio, herror]
  · have hio : pending ClassHierarchy.javaLang.subtyping "IOException"
        [⟨[⟨7, ["FileNotFoundException"]⟩], some 6⟩, ⟨[⟨3, ["Exception"]⟩], none⟩] =
          [(6, .exceptional 3)] := by decide +kernel
    have herror : pending ClassHierarchy.javaLang.subtyping "Error"
        [⟨[⟨7, ["FileNotFoundException"]⟩], some 6⟩, ⟨[⟨3, ["Exception"]⟩], none⟩] =
          [(6, .exceptional Graph.exit)] := by decide +kernel
    rw [hresumed]
    simp [hio, herror, Draft.initial, Draft.resumptionsOf]

end MethodFlow
