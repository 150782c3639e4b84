import MethodFlow.Graph.PassThrough
import MethodFlow.Proofs.Cycles
import MethodFlow.Proofs.Reaching

/-!
# Where following empty blocks comes to rest

A block that only passes control on leads to one block, so there is one way to go from it. Either
the way ends at a block that does more, or it runs into a circle of blocks that pass control on to
one another. `Graph.normalize` follows the way until it would pass a block a second time. The block
where it then stops is the one at which the circle was entered: a block before it on the way would
have to be on the circle to be met again.

So the result is fixed by the graph alone: it is the first block on the way that does more or is on
a circle. That it stays as it is when it is normalized again, and that blocks before it have the
same result, follows.

Main result: `Graph.normalize_settles`.
-/

namespace MethodFlow

theorem BasicBlock.passesTo?_eq_some_iff {b : BasicBlock} {next : BlockId} :
    b.passesTo? = some next ↔
      b.elements = [] ∧ b.kind ≠ .loopHeader ∧ ∃ e, b.successors = [e] ∧ e.target = next := by
  constructor
  · intro h
    obtain ⟨hkind, hedge⟩ := of_passesTo? h
    refine ⟨?_, hkind, hedge⟩
    unfold passesTo? at h
    split at h
    · exact nomatch h
    · rename_i hb
      simpa [isEmpty, hkind] using hb
  · rintro ⟨hempty, hkind, e, hedge, rfl⟩
    simp [passesTo?, isEmpty, hempty, hkind, hedge]

namespace Graph

/-- The first block does nothing but pass control on to the second: it has no elements, is no loop
header, and one edge leaves it. -/
def Passes (g : Graph) (a b : BlockId) : Prop :=
  ∃ block e, g.block? a = some block ∧ block.elements = [] ∧ block.kind ≠ .loopHeader ∧
    block.successors = [e] ∧
    e.target = b

/-- The block is on a circle of blocks that do nothing but pass control on. -/
def Circles (g : Graph) (a : BlockId) : Prop := Relation.TransGen g.Passes a a

/-- The first block passes control on to the second, and is not on a circle of such blocks. -/
def PassesOnce (g : Graph) (a b : BlockId) : Prop := g.Passes a b ∧ ¬ g.Circles a

variable {g : Graph} {a b c : BlockId}

/-- The computed next block is the one that control is passed on to. -/
theorem passesTo?_eq_some_iff : g.passesTo? a = some b ↔ g.Passes a b := by
  simp only [passesTo?, Option.bind_eq_some_iff, BasicBlock.passesTo?_eq_some_iff, Passes]
  constructor
  · rintro ⟨block, hblock, hempty, hkind, e, hedge, htarget⟩
    exact ⟨block, e, hblock, hempty, hkind, hedge, htarget⟩
  · rintro ⟨block, e, hblock, hempty, hkind, hedge, htarget⟩
    exact ⟨block, hblock, hempty, hkind, e, hedge, htarget⟩

/-- A block passes control on to one block only. -/
theorem Passes.unique (hb : g.Passes a b) (hc : g.Passes a c) : b = c :=
  Option.some.inj ((passesTo?_eq_some_iff.mpr hb).symm.trans (passesTo?_eq_some_iff.mpr hc))

theorem Passes.mem_targets (h : g.Passes a b) : b ∈ g.targets a := by
  obtain ⟨block, e, hblock, _, _, hedge, rfl⟩ := h
  exact Graph.mem_targets hblock (hedge ▸ List.mem_cons_self)

/-- From a block on a circle every way leads back. -/
theorem Circles.comes_back (ha : g.Circles a) (h : Relation.ReflTransGen g.Passes a b) :
    Relation.ReflTransGen g.Passes b a := by
  -- There is one way to go from each block, so a step from the circle is a step along it.
  induction h with
  | refl => exact .refl
  | tail _ hstep ih =>
    rcases Relation.ReflTransGen.cases_head ih with rfl | ⟨_, hnext, hback⟩
    · obtain ⟨_, hnext, hback⟩ := Relation.TransGen.head'_iff.mp ha
      exact hstep.unique hnext ▸ hback
    · exact hstep.unique hnext ▸ hback

/-! ## Ways over blocks that pass control on -/

/-- A way over blocks that pass control on, listed in order without the block where it ends. -/
inductive Way (g : Graph) : BlockId → List BlockId → BlockId → Prop
  | here {a : BlockId} : Way g a [] a
  | step {a b c : BlockId} {passed : List BlockId} (isStep : g.Passes a b)
      (rest : Way g b passed c) :
      Way g a (a :: passed) c

namespace Way

variable {passed : List BlockId}

theorem split (h : g.Way a passed c) (hb : b ∈ passed) :
    ∃ before after, passed = before ++ b :: after ∧ g.Way a before b ∧ g.Way b (b :: after) c := by
  induction h with
  | here => exact nomatch hb
  | @step a _ _ passed isStep rest ih =>
    rcases List.mem_cons.mp hb with rfl | hb
    · exact ⟨[], passed, rfl, .here, .step isStep rest⟩
    · obtain ⟨before, after, rfl, hto, hfrom⟩ := ih hb
      exact ⟨a :: before, after, rfl, .step isStep hto, hfrom⟩

/-- A way is a chain of blocks that pass control on. -/
theorem leads (h : g.Way a passed b) : Relation.ReflTransGen g.Passes a b := by
  induction h with
  | here => exact .refl
  | step isStep _ ih => exact ih.head isStep

/-- A way over blocks that are on no circle. -/
theorem passesOnce (h : g.Way a passed b) (hpassed : ∀ c ∈ passed, ¬ g.Circles c) :
    Relation.ReflTransGen g.PassesOnce a b := by
  induction h with
  | here => exact .refl
  | step isStep _ ih =>
    obtain ⟨hfirst, hpassed⟩ := List.forall_mem_cons.mp hpassed
    exact (ih hpassed).head ⟨isStep, hfirst⟩

theorem lt_size (h : g.Way a passed b) (hg : g.InRange) (ha : a < g.size) : b < g.size := by
  induction h with
  | here => exact ha
  | step isStep _ ih => exact ih (hg.lt isStep.mem_targets)

/-- What a block on the way passes control on to is on the way too, or at its end. -/
theorem next_mem (h : g.Way a passed c) {next : BlockId} (hb : b ∈ passed)
    (hnext : g.Passes b next) :
    next ∈ passed ∨ next = c := by
  induction h with
  | here => exact nomatch hb
  | step isStep rest ih =>
    rcases List.mem_cons.mp hb with rfl | hb
    · obtain rfl := isStep.unique hnext
      cases rest with
      | here => exact Or.inr rfl
      | step => exact Or.inl (List.mem_cons_of_mem _ List.mem_cons_self)
    · exact (ih hb).imp_left (List.mem_cons_of_mem _)

/-- A way that comes back to where it began has all blocks on it that can be met from there. -/
theorem mem_of_leads (h : g.Way a (a :: passed) a) (hb : Relation.ReflTransGen g.Passes a b) :
    b ∈ a :: passed := by
  induction hb with
  | refl => exact List.mem_cons_self
  | tail _ hstep ih =>
    rcases h.next_mem ih hstep with hmem | rfl
    · exact hmem
    · exact List.mem_cons_self

/-- A way that comes back to where it began goes round in a circle. -/
theorem circles (h : g.Way a (a :: passed) a) : g.Circles a := by
  cases h with
  | step isStep rest => exact Relation.TransGen.head' isStep rest.leads

end Way

/-! ## Where the way ends -/

/-- Following blocks passes each of them once. It ends at a block that does more, at one that may
not be passed or at one that has been passed before. -/
theorem exists_way_passOver {unpassed : List BlockId} (hnodup : unpassed.Nodup) (id : BlockId) :
    ∃ passed, g.Way id passed (g.passOver unpassed id) ∧ passed.Nodup ∧ passed ⊆ unpassed ∧
      ((∀ b, ¬ g.Passes (g.passOver unpassed id) b) ∨ g.passOver unpassed id ∉ unpassed ∨
        g.passOver unpassed id ∈ passed) := by
  fun_induction passOver g unpassed id with
  | case1 unpassed id hid next hnext ih =>
    obtain ⟨passed, hway, hpassed, hsub, hend⟩ := ih (hnodup.erase id)
    have hnew : id ∉ passed := fun hm => hnodup.not_mem_erase (hsub hm)
    refine ⟨id :: passed, .step (passesTo?_eq_some_iff.mp hnext) hway,
      List.nodup_cons.mpr ⟨hnew, hpassed⟩,
        List.cons_subset.mpr ⟨hid, List.Subset.trans hsub List.erase_subset⟩, ?_⟩
    rcases hend with hstop | hout | hagain
    · exact Or.inl hstop
    · by_cases heq : g.passOver (unpassed.erase id) next = id
      · exact Or.inr (Or.inr (List.mem_cons.mpr (Or.inl heq)))
      · exact Or.inr (Or.inl fun hm => hout ((List.mem_erase_of_ne heq).mpr hm))
    · exact Or.inr (Or.inr (List.mem_cons_of_mem _ hagain))
  | case2 unpassed id hid hnone =>
    refine ⟨[], .here, List.nodup_nil, List.nil_subset _, Or.inl fun b hb => ?_⟩
    exact Option.some_ne_none b ((passesTo?_eq_some_iff.mpr hb).symm.trans hnone)
  | case3 unpassed id hid =>
    exact ⟨[], .here, List.nodup_nil, List.nil_subset _, Or.inr (Or.inl hid)⟩

/-- The block is where the way from another one comes to rest: the first on the way that does more
than pass control on, or that is on a circle. -/
structure Settles (g : Graph) (a b : BlockId) : Prop where
  way : Relation.ReflTransGen g.PassesOnce a b
  rests : (∀ c, ¬ g.Passes b c) ∨ g.Circles b

namespace Settles

theorem not_passesOnce (h : g.Settles a b) (c : BlockId) : ¬ g.PassesOnce b c := by
  rintro ⟨hstep, hnot⟩
  rcases h.rests with hstop | hcircle
  · exact hstop c hstep
  · exact hnot hcircle

/-- A way settles in one place only. -/
theorem unique (hb : g.Settles a b) (hc : g.Settles a c) : b = c := by
  have hdet : Relator.RightUnique g.PassesOnce := fun _ _ _ h₁ h₂ => h₁.1.unique h₂.1
  -- One of the ways is the other one with more steps, and from a place of rest there are none.
  rcases Relation.ReflTransGen.total_of_right_unique hdet hb.way hc.way with hway | hway
  · rcases Relation.ReflTransGen.cases_head hway with heq | ⟨_, hstep, _⟩
    · exact heq
    · exact absurd hstep (hb.not_passesOnce _)
  · rcases Relation.ReflTransGen.cases_head hway with heq | ⟨_, hstep, _⟩
    · exact heq.symm
    · exact absurd hstep (hc.not_passesOnce _)

end Settles

/-- Following blocks from a block of the graph comes to rest at a block of the graph. -/
theorem settles_normalize (hg : g.InRange) (ha : a < g.size) :
    g.normalize a < g.size ∧ g.Settles a (g.normalize a) := by
  obtain ⟨passed, hway, hnodup, _, hend⟩ := exists_way_passOver (g := g) List.nodup_range a
  change g.Way a passed (g.normalize a) at hway
  have hlt := hway.lt_size hg ha
  refine ⟨hlt, ?_⟩
  rcases hend with hstop | hout | hagain
  · refine ⟨hway.passesOnce fun b hb hcircle => ?_, Or.inl hstop⟩
    -- A circle would lead on from the last block, back to `b`.
    obtain ⟨_, _, _, _, hfrom⟩ := hway.split hb
    rcases Relation.ReflTransGen.cases_head (hcircle.comes_back hfrom.leads)
      with heq | ⟨_, hstep, _⟩
    · obtain ⟨_, hstep, _⟩ := Relation.TransGen.head'_iff.mp hcircle
      exact hstop _ (heq ▸ hstep)
    · exact hstop _ hstep
  · exact absurd (List.mem_range.mpr hlt) hout
  · obtain ⟨before, after, rfl, hto, hround⟩ := hway.split hagain
    refine ⟨hto.passesOnce fun b hb hcircle => ?_, Or.inr hround.circles⟩
    -- A circle through `b` would be the one that the way ends with, which begins later.
    obtain ⟨_, _, _, _, hfrom⟩ := hto.split hb
    have hmem := hround.mem_of_leads (hcircle.comes_back hfrom.leads)
    exact (List.nodup_append.mp hnodup).2.2 b hb b hmem rfl

/-- From every block of a graph, following blocks that only pass control on comes to rest at a block
of the graph. It is reached over blocks that pass control on and are on no circle of such blocks,
and it does more itself or is on a circle. It comes to rest at itself, and a block that passes
control on, but is on no circle, has the same result as the block that it passes control on to. -/
theorem normalize_settles (g : Graph) (hg : g.InRange) (x : BlockId) (hx : x < g.size) :
    g.normalize x < g.size ∧ Relation.ReflTransGen g.PassesOnce x (g.normalize x) ∧
      ((∀ b, ¬ g.Passes (g.normalize x) b) ∨ g.Circles (g.normalize x)) ∧
      g.normalize (g.normalize x) = g.normalize x ∧
      ∀ next, g.Passes x next → ¬ g.Circles x → g.normalize x = g.normalize next := by
  obtain ⟨hlt, hsettles⟩ := settles_normalize hg hx
  refine ⟨hlt, hsettles.way, hsettles.rests, ?_, fun next hstep hnot => ?_⟩
  · exact (settles_normalize hg hlt).2.unique ⟨.refl, hsettles.rests⟩
  · have hnext := (settles_normalize hg (hg.lt hstep.mem_targets)).2
    exact hsettles.unique ⟨hnext.way.head ⟨hstep, hnot⟩, hnext.rests⟩

/-- Two empty blocks that lead into a circle of three. -/
def tailedCircle : Graph where
  blocks := #[
    { kind := .entry, successors := [.sequential 2] },
    { kind := .exit, terminator := .methodExit },
    { successors := [.sequential 3] },
    { successors := [.sequential 4] },
    { successors := [.sequential 5] },
    { successors := [.loopBack 3] }]
  two_le_size := by decide

/-- From outside the circle the way comes to rest where it enters the circle, and from inside at
once. -/
theorem normalize_settles_tailedCircle :
    tailedCircle.InRange ∧ Relation.ReflTransGen tailedCircle.PassesOnce 0 3 ∧
      tailedCircle.Circles 3 ∧
      tailedCircle.normalize 0 = 3 ∧ tailedCircle.normalize 3 = 3 ∧
        tailedCircle.normalize 5 = 5 := by
  have hg : tailedCircle.InRange := by decide
  have hzero : tailedCircle.normalize 0 = 3 := by decide +kernel
  have hfive : tailedCircle.normalize 5 = 5 := by decide +kernel
  have hstep : tailedCircle.Passes 3 4 := passesTo?_eq_some_iff.mp (by decide)
  obtain ⟨_, hway, hrests, hagain, _⟩ := normalize_settles tailedCircle hg 0 (by decide)
  rw [hzero] at hway hrests hagain
  exact ⟨hg, hway, hrests.resolve_left fun hstop => hstop 4 hstep, hzero, hagain, hfive⟩

end Graph

end MethodFlow
