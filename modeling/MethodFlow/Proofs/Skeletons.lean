import MethodFlow.Proofs.Parts

/-!
# The drafts between the parts of a construct

A construct is drawn part by part, with a piece of drawing between any two. For each construct a
structure lists the drafts on the way, each with the blocks that wait in it and, where a part
begins, with the scope that fits there. It holds as soon as every part leaves the waiting blocks as
they were, and so it need not be worked out again for each thing that is proved about the construct.
-/

namespace MethodFlow

/-- Drawing inside one more target leaves no resumptions but those of the scope around it. -/
theorem registers_of_inside {scope : Scope} {labels : List String} {kind : TargetKind}
    {after : BlockId} {d : Draft} : ∀ p, (scope.inside labels kind after).Registers p →
      scope.Registers p ∨ d.fresh ≤ p.1 :=
  fun _ hp => Or.inl hp.of_inside

open Draft (Drawn)

/-- The scope of a loop fits in the block where its next round begins. -/
theorem Scope.Fits.turn {scope : Scope} {d : Draft} (hfit : scope.Fits d) (hd : d.Steady)
    {next : BlockId} (hw : d.Waiting next) (hnew : ∀ id, scope.Names id → id ≠ next) :
    (d.turn .loopBack next next).Steady ∧ scope.Fits (d.turn .loopBack next next) := by
  have hk : Drawn scope d (d.turn .loopBack next next) _ :=
    (Drawn.refl hd).turn (Or.inr rfl) (Or.inr (Or.inl hw)) hw
  exact ⟨hk.steady, hk.fits hd hfit fun id hn hid => ⟨hid, hnew id hn⟩⟩

namespace Draft.Drawn

variable {scope : Scope} {d : Draft}

/-- After the test drawing goes on in the body, whose block waits no longer. -/
theorem testFor (hd : d.Steady) (hfit : scope.Fits d) (test : Option Expr) {inner after : BlockId}
    (hinner : d.Waiting inner) (hafter : d.Waiting after) :
    Drawn scope d (d.testFor scope test inner after) fun id => d.Waiting id ∧ id ≠ inner := by
  have h₀ : Drawn scope d d d.Waiting := .refl hd
  unfold Draft.testFor
  cases test with
  | none =>
    refine (h₀.terminate (.jump inner (Or.inl rfl)) (fun e he => ?_) (Or.inl rfl)).start inner
      (by simp) hinner
    rw [List.mem_singleton.mp he]
    exact h₀.awaits hinner
  | some test =>
    have ht := (test.faithful hd hfit).drawn
    exact (ht.branch inner after test.span (ht.awaits hinner) (ht.awaits hafter)).start inner
      (by simp) hinner

theorem updateFor (hd : d.Steady) (hfit : scope.Fits d) (update : List Expr) (next : BlockId)
    (hnext : update.isEmpty = false → d.Waiting next ∧ ∀ id, scope.Names id → id ≠ next) :
    Drawn scope d (d.updateFor scope update next)
      fun id => d.Waiting id ∧ (update.isEmpty = false → id ≠ next) := by
  have h₀ : Drawn scope d d d.Waiting := .refl hd
  unfold Draft.updateFor
  split
  · rename_i hempty
    exact h₀.congr (by grind)
  · rename_i hempty
    obtain ⟨hw, hnew⟩ := hnext (Bool.eq_false_iff.mpr hempty)
    obtain ⟨hsteady, hfit'⟩ := hfit.turn hd hw hnew
    have hturn := h₀.turn (Or.inr rfl) (h₀.awaits hw) hw
    refine (hturn.part hd (Expr.faithful_all update hsteady hfit').drawn fun _ hp =>
      Or.inl hp).congr ?_
    grind

end Draft.Drawn

namespace Draft

variable {scope : Scope} {labels : List String} {d dt d₁ d₂ : Draft}

/-! ## Branches -/

/-- The branch of an `if` without `else`, after its test. -/
structure IfDrawn (scope : Scope) (d d₁ : Draft) (cons : Stmt) (test : Span) : Prop where
  opened : Drawn scope d (d.openIf cons none test) fun id => d.Waiting id ∨ id = d.fresh + 1
  fits : scope.Fits (d.openIf cons none test)
  after_cons : Drawn scope d d₁ fun id => d.Waiting id ∨ id = d.fresh + 1
  whole : Drawn scope d (d₁.continueAt (d.fresh + 1)) d.Waiting

theorem IfDrawn.of_parts {cons : Stmt} {test : Span} (hd : d.Steady) (hfit : scope.Fits d)
    (hcons : Draws scope (d.openIf cons none test) d₁) : IfDrawn scope d d₁ cons test := by
  have hlt : ∀ id, d.Waiting id → id < d.fresh := fun id hid => hid.lt
  have ho : Drawn scope d (d.openIf cons none test) fun id => d.Waiting id ∨ id = d.fresh + 1 :=
    ((Drawn.refl hd).openIf cons none test).congr (by grind)
  have hfitc := ho.fits hd hfit fun _ _ hid => Or.inl hid
  have hc := ho.part hd (hcons ho.steady hfitc) fun _ hp => Or.inl hp
  exact ⟨ho, hfitc, hc, (hc.continueAt (d.fresh + 1) (Or.inr rfl)).congr (by grind)⟩

/-- The branches of an `if` with `else`, after its test. -/
structure IfElseDrawn (scope : Scope) (d d₁ d₂ : Draft) (cons alt : Stmt) (test : Span) : Prop where
  opened : Drawn scope d (d.openIf cons (some alt) test)
    fun id => d.Waiting id ∨ id = d.fresh + 1 ∨ id = d.fresh + 2
  fits_cons : scope.Fits (d.openIf cons (some alt) test)
  after_cons : Drawn scope d d₁ fun id => d.Waiting id ∨ id = d.fresh + 1 ∨ id = d.fresh + 2
  turned : Drawn scope d (d₁.turn .sequential (d.fresh + 1) (d.fresh + 2))
    fun id => d.Waiting id ∨ id = d.fresh + 1
  fits_alt : scope.Fits (d₁.turn .sequential (d.fresh + 1) (d.fresh + 2))
  after_alt : Drawn scope d d₂ fun id => d.Waiting id ∨ id = d.fresh + 1
  whole : Drawn scope d (d₂.continueAt (d.fresh + 1)) d.Waiting

theorem IfElseDrawn.of_parts {cons alt : Stmt} {test : Span} (hd : d.Steady) (hfit : scope.Fits d)
    (hcons : Draws scope (d.openIf cons (some alt) test) d₁)
    (halt : Draws scope (d₁.turn .sequential (d.fresh + 1) (d.fresh + 2)) d₂) :
    IfElseDrawn scope d d₁ d₂ cons alt test := by
  have hlt : ∀ id, d.Waiting id → id < d.fresh := fun id hid => hid.lt
  have keep : ∀ p, scope.Registers p → scope.Registers p ∨ d.fresh ≤ p.1 := fun _ hp => Or.inl hp
  have hc₀ : Drawn scope d (d.openIf cons (some alt) test)
      fun id => d.Waiting id ∨ id = d.fresh + 1 ∨ id = d.fresh + 2 :=
    ((Drawn.refl hd).openIf cons (some alt) test).congr (by grind)
  have hfitc := hc₀.fits hd hfit fun _ _ hid => Or.inl hid
  have hc := hc₀.part hd (hcons hc₀.steady hfitc) keep
  have ha₀ : Drawn scope d (d₁.turn .sequential (d.fresh + 1) (d.fresh + 2))
      fun id => d.Waiting id ∨ id = d.fresh + 1 :=
    (hc.turn (Or.inl rfl) (hc.awaits (by grind)) (by grind)).congr (by grind)
  have hfita := ha₀.fits hd hfit fun _ _ hid => Or.inl hid
  have ha := ha₀.part hd (halt ha₀.steady hfita) keep
  exact ⟨hc₀, hfitc, hc, ha₀, hfita, ha,
    (ha.continueAt (d.fresh + 1) (Or.inr rfl)).congr (by grind)⟩

/-! ## Loops -/

/-- A `while` loop with the test drawn to `dt` and the body to `d₁`. -/
structure WhileDrawn (scope : Scope) (labels : List String) (d dt d₁ : Draft)
    (header body test : Span) :
    Prop where
  opened : Drawn scope d (d.openHeader (some header)) d.Waiting
  fits_test : scope.Fits (d.openHeader (some header))
  after_test : Drawn scope d dt d.Waiting
  entered : Drawn scope d (dt.openBody body test) fun id => d.Waiting id ∨ id = dt.fresh + 1
  fits_body : (scope.inside labels (.loop d.fresh) (dt.fresh + 1)).Fits (dt.openBody body test)
  after_body : Drawn scope d d₁ fun id => d.Waiting id ∨ id = dt.fresh + 1
  round : d₁.graph.isLoopHeader d.fresh = true
  whole : Drawn scope d (d₁.turn .loopBack d.fresh (dt.fresh + 1)) d.Waiting

theorem WhileDrawn.of_parts {header body test : Span} (hd : d.Steady) (hfit : scope.Fits d)
    (htest : Draws scope (d.openHeader (some header)) dt)
    (hbody : Draws (scope.inside labels (.loop d.fresh) (dt.fresh + 1))
      (dt.openBody body test) d₁) :
    WhileDrawn scope labels d dt d₁ header body test := by
  have h₀ : Drawn scope d d d.Waiting := .refl hd
  have hh := h₀.openHeader (some header)
  have isHeader := h₀.isLoopHeader_openHeader (some header)
  have hfith := hh.fits hd hfit fun _ _ hid => hid
  have kt := htest hh.steady hfith
  have ht := hh.part hd kt fun _ hp => Or.inl hp
  have hlt : ∀ id, d.Waiting id → id < dt.fresh := fun id hid => ht.lt hid
  have hb := ht.openBody body test
  have extends_header : ∀ {d'}, Run dt d' → (d.openHeader (some header)).Extends d' := fun hr =>
    (kt.run.trans hr).extends hh.steady
  have kb : Drawn scope dt (dt.openBody body test) _ := (Drawn.refl ht.steady).openBody body test
  have hfitb := (hb.fits hd hfit fun _ _ hid => Or.inl hid).inside_loop labels
    (Or.inr (Or.inr ((extends_header kb.run).isLoopHeader isHeader)))
    ((hb.waiting (dt.fresh + 1)).mpr (Or.inr rfl))
  have kbody := hbody hb.steady hfitb
  have hbody := hb.part hd kbody registers_of_inside
  have hround := (extends_header (kb.run.trans kbody.run)).isLoopHeader isHeader
  refine ⟨hh, hfith, ht, hb, hfitb, hbody, hround, ?_⟩
  exact (hbody.turn (Or.inr rfl) (Or.inr (Or.inr hround)) (Or.inr rfl)).congr (by grind)

/-- A `do` loop with the body drawn to `d₁` and the test to `dt`. -/
structure DoDrawn (scope : Scope) (labels : List String) (d d₁ dt : Draft)
    (body test : Span) : Prop where
  opened : Drawn scope d (d.openDo body test)
    fun id => d.Waiting id ∨ id = d.fresh + 1 ∨ id = d.fresh + 2
  fits_body : (scope.inside labels (.loop (d.fresh + 1)) (d.fresh + 2)).Fits (d.openDo body test)
  after_body : Drawn scope d d₁ fun id => d.Waiting id ∨ id = d.fresh + 1 ∨ id = d.fresh + 2
  turned : Drawn scope d (d₁.continueAt (d.fresh + 1)) fun id => d.Waiting id ∨ id = d.fresh + 2
  fits_test : scope.Fits (d₁.continueAt (d.fresh + 1))
  after_test : Drawn scope d dt fun id => d.Waiting id ∨ id = d.fresh + 2
  round : dt.graph.isLoopHeader d.fresh = true
  whole : Drawn scope d (dt.closeDo d.fresh (d.fresh + 2) test) d.Waiting

theorem DoDrawn.of_parts {body test : Span} (hd : d.Steady) (hfit : scope.Fits d)
    (hbody : Draws (scope.inside labels (.loop (d.fresh + 1)) (d.fresh + 2))
      (d.openDo body test) d₁)
    (htest : Draws scope (d₁.continueAt (d.fresh + 1)) dt) :
      DoDrawn scope labels d d₁ dt body test := by
  have h₀ : Drawn scope d d d.Waiting := .refl hd
  have hlt : ∀ id, d.Waiting id → id < d.fresh := fun id hid => hid.lt
  have ho := h₀.openDo body test
  have isHeader := h₀.isLoopHeader_openDo body test
  have hfito := ho.fits hd hfit fun _ _ hid => Or.inl hid
  have hfitb := hfito.inside_loop labels (ho.awaits (Or.inr (Or.inl rfl)))
    ((ho.waiting (d.fresh + 2)).mpr (Or.inr (Or.inr rfl)))
  have kb := hbody ho.steady hfitb
  have hb := ho.part hd kb registers_of_inside
  have hc : Drawn scope d (d₁.continueAt (d.fresh + 1)) fun id => d.Waiting id ∨ id = d.fresh + 2 :=
    (hb.continueAt (d.fresh + 1) (by grind)).congr (by grind)
  have hfitc := hc.fits hd hfit fun _ _ hid => Or.inl hid
  have kt := htest hc.steady hfitc
  have ht := hc.part hd kt fun _ hp => Or.inl hp
  -- From the header on, all that is drawn is a run.
  have kc : Drawn scope d₁ (d₁.continueAt (d.fresh + 1)) _ :=
    (Drawn.refl hb.steady).continueAt (d.fresh + 1) ((hb.waiting _).mpr (by grind))
  have hround := (((kb.run.trans kc.run).trans kt.run).extends ho.steady).isLoopHeader isHeader
  refine ⟨ho, hfitb, hb, hc, hfitc, ht, hround, ?_⟩
  exact (ht.closeDo test (Or.inr (Or.inr hround)) (Or.inr rfl)).congr (by grind)

/-- A loop over the elements of something, with the body drawn to `d₁`. -/
structure EachDrawn (scope : Scope) (labels : List String) (d d₁ : Draft)
    (header body iterable : Span) (kind : ElementKind) (span : Span) : Prop where
  opened : Drawn scope d (d.openHeader (some header)) d.Waiting
  entered : Drawn scope d (((d.openHeader (some header)).openBody body iterable).emit kind span)
    fun id => d.Waiting id ∨ id = d.fresh + 2
  fits_body : (scope.inside labels (.loop d.fresh) (d.fresh + 2)).Fits
    (((d.openHeader (some header)).openBody body iterable).emit kind span)
  after_body : Drawn scope d d₁ fun id => d.Waiting id ∨ id = d.fresh + 2
  round : d₁.graph.isLoopHeader d.fresh = true
  whole : Drawn scope d (d₁.turn .loopBack d.fresh (d.fresh + 2)) d.Waiting

theorem EachDrawn.of_parts {header body iterable : Span} {kind : ElementKind} {span : Span}
    (hd : d.Steady) (hfit : scope.Fits d)
    (hbody : Draws (scope.inside labels (.loop d.fresh) (d.fresh + 2))
      (((d.openHeader (some header)).openBody body iterable).emit kind span) d₁) :
    EachDrawn scope labels d d₁ header body iterable kind span := by
  have h₀ : Drawn scope d d d.Waiting := .refl hd
  have hlt : ∀ id, d.Waiting id → id < d.fresh := fun id hid => hid.lt
  have hh := h₀.openHeader (some header)
  have isHeader := h₀.isLoopHeader_openHeader (some header)
  have hb := (hh.openBody body iterable).emit kind span
  have kb : Drawn scope (d.openHeader (some header)) _ _ :=
    ((Drawn.refl hh.steady).openBody body iterable).emit kind span
  rw [fresh_openHeader] at hb
  have hfitb := (hb.fits hd hfit fun _ _ hid => Or.inl hid).inside_loop labels
    (Or.inr (Or.inr ((kb.run.extends hh.steady).isLoopHeader isHeader)))
    ((hb.waiting (d.fresh + 2)).mpr (Or.inr rfl))
  have kbody := hbody hb.steady hfitb
  have hbody := hb.part hd kbody registers_of_inside
  have hround := ((kb.run.trans kbody.run).extends hh.steady).isLoopHeader isHeader
  refine ⟨hh, hb, hfitb, hbody, hround, ?_⟩
  exact (hbody.turn (Or.inr rfl) (Or.inr (Or.inr hround)) (Or.inr rfl)).congr (by grind)

/-- The block where the next round of a `for` loop begins: without updates it is the header. -/
def forNext (header : BlockId) (update : List Expr) : BlockId :=
  if update.isEmpty then header else header + 3

theorem forNext_of_updates {header : BlockId} {update : List Expr} (h : update.isEmpty = false) :
    forNext header update = header + 3 := by
  rw [forNext, h, if_neg (by simp)]

/-- A `for` loop after its initialization, with its blocks made in `dm` and the body drawn to
`d₁`. -/
structure ForDrawn (scope : Scope) (labels : List String) (d dm d₁ : Draft) (header : Span)
    (test : Option Expr) (update : List Expr) : Prop where
  opened : Drawn scope d (d.openHeader (some header)) d.Waiting
  made : Drawn scope d dm fun id => d.Waiting id ∨ id = d.fresh + 1 ∨ id = d.fresh + 2 ∨
    update.isEmpty = false ∧ id = d.fresh + 3
  fits_test : scope.Fits dm
  entered : Drawn scope d (dm.testFor scope test (d.fresh + 1) (d.fresh + 2)) fun id =>
    d.Waiting id ∨ id = d.fresh + 2 ∨ update.isEmpty = false ∧ id = d.fresh + 3
  fits_body : (scope.inside labels (.loop (forNext d.fresh update)) (d.fresh + 2)).Fits
    (dm.testFor scope test (d.fresh + 1) (d.fresh + 2))
  after_body : Drawn scope d d₁ fun id =>
    d.Waiting id ∨ id = d.fresh + 2 ∨ update.isEmpty = false ∧ id = d.fresh + 3
  fits_update : scope.Fits d₁
  next : update.isEmpty = false →
    d₁.Waiting (forNext d.fresh update) ∧ ∀ id, scope.Names id → id ≠ forNext d.fresh update
  updated : Drawn scope d (d₁.updateFor scope update (forNext d.fresh update)) fun id =>
    d.Waiting id ∨ id = d.fresh + 2
  round : (d₁.updateFor scope update (forNext d.fresh update)).graph.isLoopHeader d.fresh = true
  whole : Drawn scope d
    ((d₁.updateFor scope update (forNext d.fresh update)).turn .loopBack d.fresh (d.fresh + 2))
      d.Waiting

/-- The blocks of a `for` loop wait where its parts expect them. -/
theorem ForDrawn.of_parts {header body : Span} {test : Option Expr} {update : List Expr}
    (hd : d.Steady) (hfit : scope.Fits d)
    (hbody : Draws (scope.inside labels (.loop (forNext d.fresh update)) (d.fresh + 2))
      (((d.openHeader (some header)).makeFor (!update.isEmpty) body).testFor scope test
        (d.fresh + 1) (d.fresh + 2)) d₁) :
    ForDrawn scope labels d ((d.openHeader (some header)).makeFor (!update.isEmpty) body)
      d₁ header test
      update := by
  have h₀ : Drawn scope d d d.Waiting := .refl hd
  have hlt : ∀ id, d.Waiting id → id < d.fresh := fun id hid => hid.lt
  have hnew : ∀ id, scope.Names id → id < d.fresh := fun id hn => hfit.lt hn
  have hh := h₀.openHeader (some header)
  have isHeader := h₀.isLoopHeader_openHeader (some header)
  have km : Drawn scope (d.openHeader (some header)) _ _ :=
    (Drawn.refl hh.steady).makeFor (!update.isEmpty) body
  have hm : Drawn scope d ((d.openHeader (some header)).makeFor (!update.isEmpty) body) fun id =>
      d.Waiting id ∨ id = d.fresh + 1 ∨ id = d.fresh + 2 ∨ update.isEmpty = false ∧
        id = d.fresh + 3 := by
    refine (hh.makeFor (!update.isEmpty) body).congr fun id => ?_
    rw [fresh_openHeader]
    grind
  generalize (d.openHeader (some header)).makeFor (!update.isEmpty) body = dm at *
  have hfitm := hm.fits hd hfit fun _ _ hid => Or.inl hid
  have kt := Drawn.testFor hm.steady hfitm test ((hm.waiting (d.fresh + 1)).mpr (by grind))
    ((hm.waiting (d.fresh + 2)).mpr (by grind))
  have ht : Drawn scope d (dm.testFor scope test (d.fresh + 1) (d.fresh + 2)) fun id =>
      d.Waiting id ∨ id = d.fresh + 2 ∨ update.isEmpty = false ∧ id = d.fresh + 3 := by
    refine (hm.trans hd kt fun _ hp => Or.inl hp).congr fun id => ?_
    rw [hm.waiting]
    grind
  have isHeader_of : ∀ {d'}, Run dm d' → d'.graph.isLoopHeader d.fresh = true := fun hr =>
    ((km.run.trans hr).extends hh.steady).isLoopHeader isHeader
  -- Without updates the next round begins at the header itself.
  have hnext :
      (dm.testFor scope test (d.fresh + 1) (d.fresh + 2)).Awaits (forNext d.fresh update) := by
    unfold forNext
    split
    · exact Or.inr (Or.inr (isHeader_of kt.run))
    · exact ht.awaits (by grind)
  have hfitb := (ht.fits hd hfit fun _ _ hid => Or.inl hid).inside_loop labels hnext
    ((ht.waiting (d.fresh + 2)).mpr (by grind))
  have kb := hbody ht.steady hfitb
  have hb := ht.part hd kb registers_of_inside
  have hfit₁ := hb.fits hd hfit fun _ _ hid => Or.inl hid
  have hupdates : update.isEmpty = false → d₁.Waiting (forNext d.fresh update) ∧
      ∀ id, scope.Names id → id ≠ forNext d.fresh update := by
    intro he
    rw [forNext_of_updates he]
    exact ⟨(hb.waiting _).mpr (Or.inr (Or.inr ⟨he, rfl⟩)), by grind⟩
  have ku := Drawn.updateFor hb.steady hfit₁ update (forNext d.fresh update) hupdates
  have hu : Drawn scope d (d₁.updateFor scope update (forNext d.fresh update)) fun id =>
      d.Waiting id ∨ id = d.fresh + 2 := by
    refine (hb.trans hd ku fun _ hp => Or.inl hp).congr fun id => ?_
    rw [hb.waiting]
    have := @forNext_of_updates d.fresh update
    grind
  have hround := isHeader_of ((kt.run.trans kb.run).trans ku.run)
  refine ⟨hh, hm, hfitm, ht, hfitb, hb, hfit₁, hupdates, hu, hround, ?_⟩
  exact (hu.turn (Or.inr rfl) (Or.inr (Or.inr hround)) (Or.inr rfl)).congr (by grind)

/-! ## Labels -/

/-- A labeled statement that is a target of its own, with its body drawn to `d₁`. -/
structure LabelDrawn (scope : Scope) (labels : List String) (d d₁ : Draft) : Prop where
  made : Drawn scope d (d.create .normal none) fun id => d.Waiting id ∨ id = d.fresh
  fits : (scope.inside labels .labeled d.fresh).Fits (d.create .normal none)
  after_body : Drawn scope d d₁ fun id => d.Waiting id ∨ id = d.fresh
  whole : Drawn scope d (d₁.continueAt d.fresh) d.Waiting

theorem LabelDrawn.of_parts (hd : d.Steady) (hfit : scope.Fits d)
    (hbody : Draws (scope.inside labels .labeled d.fresh) (d.create .normal none) d₁) :
    LabelDrawn scope labels d d₁ := by
  have hlt : ∀ id, d.Waiting id → id < d.fresh := fun id hid => hid.lt
  have hc : Drawn scope d (d.create .normal none) _ := (Drawn.refl hd).create .normal none
  have hfitc := (hc.fits hd hfit fun _ _ hid => Or.inl hid).inside labels .labeled
    ((hc.waiting d.fresh).mpr (Or.inr rfl)) fun _ hk => nomatch hk
  have hb := hc.part hd (hbody hc.steady hfitc) registers_of_inside
  exact ⟨hc, hfitc, hb, (hb.continueAt d.fresh (Or.inr rfl)).congr (by grind)⟩

end Draft

end MethodFlow
