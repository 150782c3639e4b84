import MethodFlow.Proofs.Drawing
import MethodFlow.Proofs.Pruning
import MethodFlow.Proofs.Traces
import MethodFlow.Proofs.Trimming

/-!
# Tails

What is drawn in a tail leaves the blocks that both drafts have as they are (`Drawn.untouched`).
This holds as long as no `finally` clause is told where to go on, and therefore a pruning spares
what such a clause follows.

The names of blocks change where a tail ends: the blocks that both drafts have keep theirs, and
those that are made from there on get higher numbers in the first draft, by as many as the tail has
made. Main result: `Trimmed.tail`.
-/

namespace MethodFlow

/-! ## Names that stay -/

namespace Renaming

/-- The blocks below `n` have the same names. -/
def Agrees (ρ' ρ : Renaming) (n : BlockId) : Prop := ∀ x, x < n → ρ'.name x = ρ.name x

theorem Agrees.refl (ρ : Renaming) (n : BlockId) : ρ.Agrees ρ n := fun _ _ => rfl

end Renaming

theorem Scope.Names.rename {scope : Scope} {id : BlockId} (h : scope.Names id) (ρ : Renaming) :
    (scope.rename ρ.name).Names (ρ.name id) := by
  rcases h with rfl | ⟨handler, hm, he⟩ | ⟨t, hm, ht⟩
  · exact Or.inl ρ.exit
  · refine Or.inr (Or.inl ⟨handler.rename ρ.name, List.mem_map_of_mem hm, ?_⟩)
    rcases he with ⟨c, hc, rfl⟩ | he
    · exact Or.inl ⟨c.rename ρ.name, List.mem_map_of_mem hc, rfl⟩
    · exact Or.inr (congrArg (Option.map ρ.name) he)
  · refine Or.inr (Or.inr ⟨t.rename ρ.name, List.mem_map_of_mem hm, ?_⟩)
    rcases ht with rfl | ht
    · exact Or.inl rfl
    · exact Or.inr ((t.continueTo?_rename ρ).trans (congrArg (Option.map ρ.name) ht))

theorem Scope.guarded_inj {scope scope' : Scope} {handler handler' : Handler}
    (h : scope.guarded handler = scope'.guarded handler') : scope = scope' ∧
      handler = handler' := by
  obtain ⟨htypes, htargets, hhandlers⟩ := Scope.mk.inj h
  obtain ⟨hhandler, hhandlers⟩ := List.cons.inj hhandlers
  cases scope
  cases scope'
  exact ⟨by congr, hhandler⟩

namespace Draft.Trimmed

open Renaming (Agrees)

variable {ρ ρ₁ ρ₂ : Renaming} {astray astray₁ : Bool} {d d' d₁ d₁' : Draft}

/-- A block that both drafts have keeps its name. -/
theorem name_eq (h : Trimmed ρ astray d d') (ha : ρ₁.Agrees ρ d'.fresh) {x y : BlockId}
    (hx : ρ.name x = y) (hlt : y < d.fresh) : ρ₁.name x = y := by
  have hlt' : x < d'.fresh := (h.lt_iff x).mpr (hx ▸ hlt)
  exact (ha x hlt').trans hx

theorem agrees_trans (h : Trimmed ρ astray d d') (ha : ρ₁.Agrees ρ d'.fresh)
    (h₁ : Trimmed ρ₁ astray₁ d₁ d₁') (hle : d.fresh ≤ d₁.fresh) (ha₁ : ρ₂.Agrees ρ₁ d₁'.fresh) :
      ρ₂.Agrees ρ d'.fresh := by
  intro x hx
  have hlt : ρ₁.name x < d₁.fresh := by
    rw [ha x hx]
    exact Nat.lt_of_lt_of_le ((h.lt_iff x).mp hx) hle
  exact (ha₁ x ((h₁.lt_iff x).mpr hlt)).trans (ha x hx)

end Draft.Trimmed

/-- The blocks from `f` on get names that are higher by `k`. -/
def Renaming.raised (ρ : Renaming) (f m k : BlockId) (hexit : Graph.exit < f)
    (hlt : ∀ x < f, ρ.name x < m) (hge : ∀ x, f ≤ x → m ≤ ρ.name x) : Renaming where
  name x := if x < f then ρ.name x else ρ.name x + k
  inj x y he := by
    have hcross : ∀ x y, x < f → ¬ y < f → ρ.name x ≠ ρ.name y + k := by
      intro x y hx hy
      have hbelow : ρ.name x < m := hlt x hx
      have habove : m ≤ ρ.name y := hge y (Nat.le_of_not_lt hy)
      exact Nat.ne_of_lt (Nat.lt_of_lt_of_le hbelow (Nat.le_trans habove (Nat.le_add_right _ k)))
    split at he <;> split at he
    · exact ρ.inj x y he
    · exact absurd he (hcross x y ‹_› ‹_›)
    · exact absurd he.symm (hcross y x ‹_› ‹_›)
    · exact ρ.inj x y (Nat.add_right_cancel he)
  exit := (if_pos hexit).trans ρ.exit

theorem Edge.Renames.congr {name name' : BlockId → BlockId} {edges edges' : List Edge}
    (h : Edge.Renames name edges edges') (hn : ∀ e ∈ edges', e.rename name' = e.rename name) :
    Edge.Renames name' edges edges' := by
  have hsame : edges'.map (·.rename name') = edges'.map (·.rename name) := List.map_congr_left hn
  intro e
  rw [hsame]
  exact h e

/-! ## What a tail leaves alone -/

/-- A block is as it was, except for what is found out about the jump at its end. -/
structure Draft.Untouched (d d₁ : Draft) (id : BlockId) : Prop where
  closed : id ∈ d₁.closed ↔ id ∈ d.closed
  resumptions : ∀ e, (id, e) ∈ d₁.resumptions ↔ (id, e) ∈ d.resumptions
  core : (d₁.graph.block? id).map (·.core) = (d.graph.block? id).map (·.core)
  notOpen : d₁.current ≠ some id

/-- Where no `finally` clause follows, what is drawn touches no older block but the one that is
open. -/
theorem Draft.Drawn.untouched {scope : Scope} {d d₁ : Draft} (hk : Drawn scope d d₁ d.Waiting)
    (hd : d.Steady) (hopen : ∀ handler ∈ scope.handlers, handler.finalizer = none) {id : BlockId}
    (hlt : id < d.fresh) (hid : d.current ≠ some id) : d.Untouched d₁ id := by
  have hext := hk.run.extends hd
  -- What waits at the end has waited all the time, so it was never open in between.
  have hkept : id ∈ d.closed ∨ d₁.Waiting id := by
    by_cases hc : id ∈ d.closed
    · exact Or.inl hc
    · exact Or.inr ((hk.waiting id).mpr ⟨hlt, hc, hid⟩)
  constructor
  · refine ⟨fun hc => ?_, fun hc => hext.closed.subset hc⟩
    rcases hkept with hold | hw
    · exact hold
    · exact absurd hc hw.2.1
  · refine fun e => ⟨fun he => ?_, fun he => hext.resumptions he⟩
    rcases hk.resumptions _ he with hold | hreg | hnew
    · exact hold
    · obtain ⟨handler, hm, hf⟩ := hreg.finalizer
      rw [hopen handler hm] at hf
      exact nomatch hf
    · exact absurd hlt (Nat.not_lt_of_le hnew)
  · exact hext.cores id hlt hkept
  · intro hcur
    rcases hkept with hc | hw
    · exact hk.steady.current_open _ hcur (hext.closed.subset hc)
    · exact hw.2.2 hcur

/-! ## Names after a tail -/

namespace Draft.Trimmed

variable {ρ : Renaming} {astray : Bool} {scope : Scope} {d d' d₁ : Draft}

theorem le_name (h : Trimmed ρ astray d d') {x : BlockId} (hx : d'.fresh ≤ x) :
    d.fresh ≤ ρ.name x :=
  Nat.le_of_not_lt fun hlt => Nat.not_lt_of_le hx ((h.lt_iff x).mpr hlt)

/-- The names after a tail in which `k` blocks were made. -/
def raised (h : Trimmed ρ astray d d') (k : Nat) : Renaming :=
  ρ.raised d'.fresh d.fresh k (Graph.two_le_size _) (fun x => (h.lt_iff x).mp) fun _ => h.le_name

variable {k : Nat}

theorem raised_agrees (h : Trimmed ρ astray d d') : (h.raised k).Agrees ρ d'.fresh :=
    fun _ hx => if_pos hx

/-- Names after a tail are raised by its length. -/
theorem raised_of_le (h : Trimmed ρ astray d d') {x : BlockId} (hx : d'.fresh ≤ x) :
    (h.raised k).name x = ρ.name x + k :=
  if_neg (Nat.not_lt_of_le hx)

theorem le_raised (h : Trimmed ρ astray d d') {x : BlockId} (hx : d'.fresh ≤ x) :
    d.fresh + k ≤ (h.raised k).name x := by
  rw [h.raised_of_le hx]
  exact Nat.add_le_add_right (h.le_name hx) k

/-- Edges lead to blocks that both drafts have, whose names stay. -/
theorem rename_raised (h : Trimmed ρ astray d d') {e : Edge}
    (he : (e.rename ρ.name).target < d.fresh) :
    e.rename (h.raised k).name = e.rename ρ.name :=
  congrArg (Edge.mk e.kind) (h.raised_agrees _ ((h.lt_iff _).mpr he))

section Raised

variable (h : Trimmed ρ astray d d') (hd : d.Steady) (hd₁ : d₁.Steady)
    (hfresh : d₁.fresh = d.fresh + k)
  (hsame : ∀ x < d'.fresh, d.Untouched d₁ (ρ.name x))

include hd hd₁ hfresh hsame

/-- A tail closes none of the blocks that have a counterpart. -/
theorem closed_raised (x : BlockId) : (h.raised k).name x ∈ d₁.closed ↔ x ∈ d'.closed := by
  rw [← h.closed x]
  by_cases hx : x < d'.fresh
  · rw [h.raised_agrees x hx]
    exact (hsame x hx).closed
  · have hx := Nat.le_of_not_lt hx
    constructor
    · exact fun hc => absurd (hd₁.closed_lt _ hc) (Nat.not_lt_of_le (hfresh ▸ h.le_raised hx))
    · exact fun hc => absurd (hd.closed_lt _ hc) (Nat.not_lt_of_le (h.le_name hx))

/-- A tail adds no resumption to a clause that has a counterpart. -/
theorem resumptions_raised (hb : d.Bounded) (x : BlockId) (e : Edge) :
    ((h.raised k).name x, e) ∈ d₁.resumptions ↔
      ∃ e', (x, e') ∈ d'.resumptions ∧ e'.rename (h.raised k).name = e := by
  have hnames : (∃ e', (x, e') ∈ d'.resumptions ∧ e'.rename (h.raised k).name = e) ↔
      (ρ.name x, e) ∈ d.resumptions := by
    rw [h.resumptions x e]
    refine exists_congr fun e' => and_congr_right fun he' => ?_
    rw [h.rename_raised (hb.resumptions _ ((h.resumptions x _).mpr ⟨e', he', rfl⟩))]
  rw [hnames]
  by_cases hx : x < d'.fresh
  · rw [h.raised_agrees x hx]
    exact (hsame x hx).resumptions e
  · have hx := Nat.le_of_not_lt hx
    constructor
    · exact fun he => absurd (hd₁.resumed_lt _ he) (Nat.not_lt_of_le (hfresh ▸ h.le_raised hx))
    · exact fun he => absurd (hd.resumed_lt _ he) (Nat.not_lt_of_le (h.le_name hx))

end Raised

/-- Blocks with a counterpart are as they were before the tail. -/
theorem blocks_raised (h : Trimmed ρ astray d d') (hb : d.Bounded)
    (hsame : ∀ x < d'.fresh, d.Untouched d₁ (ρ.name x)) {x : BlockId} {b' : BasicBlock}
    (hb' : d'.graph.block? x = some b') :
    ∃ b₁, d₁.graph.block? ((h.raised k).name x) = some b₁ ∧ b₁.Mirrors (h.raised k).name b' := by
  have hx : x < d'.fresh := Graph.lt_size_of_block? hb'
  obtain ⟨b, hblock, hm⟩ := h.blocks x b' hb'
  obtain ⟨b₁, hb₁, hcore⟩ := exists_block?_of_core (hsame x hx).core.symm hblock
  have hm₁ := hm.of_core hcore.symm rfl
  rw [h.raised_agrees x hx]
  refine ⟨b₁, hb₁, hm₁.elements, hm₁.successors.congr fun e he => ?_, hm₁.decisions⟩
  exact h.rename_raised (hb.edges _ b hblock _ ((hm.successors _).mpr (List.mem_map_of_mem he)))

/-- The drafts still correspond after more of a tail, under the names that follow from its
length. -/
theorem tail (h : Trimmed ρ true d d') (hd : d.Steady) (hb : d.Bounded)
    (hk : Drawn scope d d₁ d.Waiting)
    (hopen : ∀ handler ∈ scope.handlers, handler.finalizer = none) :
    ∃ ρ' : Renaming, ρ'.Agrees ρ d'.fresh ∧ Trimmed ρ' true d₁ d' := by
  have hsame : ∀ x < d'.fresh, d.Untouched d₁ (ρ.name x) := fun x hx =>
    hk.untouched hd hopen ((h.lt_iff x).mp hx) (h.strays rfl x)
  obtain ⟨k, hfresh⟩ := Nat.exists_eq_add_of_le (hk.fresh_le hd)
  have hentry : Graph.entry < d'.fresh := Nat.lt_of_succ_lt (Graph.two_le_size _)
  refine ⟨h.raised k, h.raised_agrees, ?_⟩
  constructor
  · exact (h.raised_agrees _ hentry).trans h.entry
  · intro n
    rw [h.raised_of_le (Nat.le_add_right _ n), h.shift, hfresh, Nat.add_right_comm]
  · exact h.closed_raised hd hk.steady hfresh hsame
  · exact h.resumptions_raised hd hk.steady hfresh hsame hb
  · exact fun _ _ => h.blocks_raised hb hsame
  · exact nofun
  · exact fun _ => h.idle rfl
  · intro _ x hcur
    by_cases hx : x < d'.fresh
    · rw [h.raised_agrees x hx] at hcur
      exact (hsame x hx).notOpen hcur
    · have hle := h.le_raised (k := k) (Nat.le_of_not_lt hx)
      exact absurd (hk.steady.current_lt _ hcur) (Nat.not_lt_of_le (hfresh ▸ hle))

end Draft.Trimmed

end MethodFlow
