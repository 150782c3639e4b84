import MethodFlow.Json.Writer
import MethodFlow.Proofs.Interests

/-!
# Written texts are read back

The writer appends to a text, and the reader goes from state to state. Writing a value takes the
reader from where a value may come to where it is complete: `Arrives` says of a text written so far
which state it brings the reader to, and each part that the writer appends is one token more
(`Arrives.token`). Words end only where something follows that is no part of them, so after a number
there must come punctuation or the end (`Delimits`).

Main result: `read?_render`, for all values whose numbers a text can give back.
-/

namespace MethodFlow.Json

/-! ## Numbers -/

/-- A number that a text can give back: its digits fit a word of 64 bits, a whole number has no
exponent, and the nearest double is finite. -/
structure Number.Exact (n : Number) : Prop where
  fits : n.magnitude.mantissa < Nat.pow 2 64
  whole : n.integral = true → n.magnitude.exponent = 0
  finite : n.magnitude.scalesOver = false

/-- A whole number of up to 53 binary digits is a double. -/
theorem nearestDouble_of_lt {n : Nat} (h : n < Nat.pow 2 53) : nearestDouble n = n := by
  have hlog : n.log2 + 1 - 53 = 0 := by
    by_cases hn : n = 0
    · rw [hn]
      rfl
    · have : n.log2 < 53 := (Nat.log2_lt hn).mpr h
      omega
  simp [nearestDouble, hlog, Nat.mod_one]

theorem digit?_of_isDigit {c : Char} (h : c.isDigit = true) :
    digit? 10 c = some (c.toNat - 48) := by
  have hrange : 48 ≤ c.toNat ∧ c.toNat ≤ 57 := by
    simpa [Char.isDigit, UInt32.le_iff_toNat_le] using h
  have hle : ('0' ≤ c && c ≤ '9') = true := by
    simpa [Char.le_def, UInt32.le_iff_toNat_le] using hrange
  have hlt : c.toNat - 48 < 10 := by omega
  simp only [digit?, hle, if_true, Option.filter_some]
  simp [hlt]

theorem digitValues?_toDigits (n : Nat) :
    digitValues? 10 (Nat.toDigits 10 n) = some ((Nat.toDigits 10 n).map (·.toNat - 48)) := by
  have hmap : ∀ cs : List Char, (∀ c ∈ cs, c.isDigit = true) →
      cs.mapM (digit? 10) = some (cs.map (·.toNat - 48)) := by
    intro cs hcs
    induction cs with
    | nil => rfl
    | cons c cs ih =>
      obtain ⟨hc, hcs⟩ := List.forall_mem_cons.mp hcs
      rw [List.mapM_cons, digit?_of_isDigit hc, ih hcs]
      rfl
  have hne : (Nat.toDigits 10 n).isEmpty = false :=
    List.isEmpty_eq_false_iff.mpr Nat.toDigits_ne_nil
  rw [digitValues?, hne]
  exact hmap _ fun c => Nat.isDigit_of_mem_toDigits (by decide) (by decide)

/-- The digits of a number are read as that number. -/
theorem digits?_toDigits (n : Nat) : digits? 10 (Nat.toDigits 10 n) = some n := by
  rw [digits?, digitValues?_toDigits, Option.map_some, List.foldl_map]
  exact congrArg some (Nat.ofDigitChars_eq_foldl.symm.trans Nat.ofDigitChars_ten_toDigits)

/-- Digits of a number that fits are all taken. -/
theorem takeDigits_map {cs : List Char} {word : Nat}
    (h : Nat.ofDigitChars 10 cs word < Nat.pow 2 64) :
    takeDigits word (cs.map (·.toNat - 48)) = (Nat.ofDigitChars 10 cs word, 0) := by
  induction cs generalizing word with
  | nil => rfl
  | cons c cs ih =>
    rw [Nat.ofDigitChars_cons] at h ⊢
    have hle : 10 * word + (c.toNat - 48) < Nat.pow 2 64 := by
      refine Nat.lt_of_le_of_lt ?_ h
      rw [Nat.ofDigitChars_eq_ofDigitChars_zero]
      exact Nat.le_trans (Nat.le_mul_of_pos_left _ (Nat.pow_pos (by decide))) (Nat.le_add_right _ _)
    rw [List.map_cons, takeDigits, if_pos hle]
    exact ih h

/-- Numbers below two to the 64 keep all their digits. -/
theorem ofWord_toDigits {n : Nat} (h : n < Nat.pow 2 64) (exponent : Int) :
    Decimal.ofWord ((Nat.toDigits 10 n).map (·.toNat - 48)) [] exponent = ⟨n, exponent⟩ := by
  have hall : takeDigits 0 ((Nat.toDigits 10 n).map (·.toNat - 48)) = (n, 0) := by
    rw [takeDigits_map (Nat.ofDigitChars_ten_toDigits.symm ▸ h), Nat.ofDigitChars_ten_toDigits]
  simp [Decimal.ofWord, hall, takeDigits]

/-- A written number has no superfluous zero in front. -/
theorem whole?_toDigits (n : Nat) :
    whole? (Nat.toDigits 10 n) = digitValues? 10 (Nat.toDigits 10 n) := by
  have hzero : ∀ c cs, Nat.toDigits 10 n ≠ '0' :: c :: cs := by
    induction n using Nat.strongRecOn with
    | ind n ih =>
      intro c cs heq
      by_cases hn : n < 10
      · rw [Nat.toDigits_of_lt_base hn] at heq
        cases (List.cons.inj heq).2
      · rw [Nat.toDigits_of_base_le (by decide) (Nat.le_of_not_lt hn)] at heq
        cases hhead : Nat.toDigits 10 (n / 10) with
        | nil => exact Nat.toDigits_ne_nil hhead
        | cons d ds =>
          rw [hhead] at heq
          obtain ⟨rfl, hds⟩ := List.cons.inj heq
          cases ds with
          | nil =>
            -- The rest of the number would be zero.
            have hvalue := Nat.ofDigitChars_ten_toDigits (n := n / 10)
            rw [hhead] at hvalue
            have : n / 10 = 0 := hvalue.symm
            omega
          | cons d' ds => exact ih (n / 10) (by omega) d' ds hhead
  rw [whole?]
  exact hzero

theorem cutAt_of_forall {p : Char → Bool} {cs : List Char} (h : ∀ c ∈ cs, p c = false) :
    cutAt p cs = (cs, none) := by
  have hdrop : cs.dropWhile (!p ·) = [] := by
    rw [← List.append_nil cs, List.dropWhile_append_of_pos fun c hc => by simp [h c hc]]
    rfl
  rw [cutAt, hdrop]

theorem cutAt_append {p : Char → Bool} {cs rest : List Char} {mark : Char}
    (h : ∀ c ∈ cs, p c = false) (hmark : p mark = true) :
      cutAt p (cs ++ mark :: rest) = (cs, some rest) := by
  have hall : ∀ c ∈ cs, (!p c) = true := fun c hc => by simp [h c hc]
  have hdrop : (cs ++ mark :: rest).dropWhile (!p ·) = mark :: rest := by
    rw [List.dropWhile_append_of_pos hall, List.dropWhile_cons_of_neg (by simp [hmark])]
  have htake : (cs ++ mark :: rest).takeWhile (!p ·) = cs := by
    rw [List.takeWhile_append_of_pos hall, List.takeWhile_cons_of_neg (by simp [hmark]),
      List.append_nil]
  rw [cutAt, hdrop, htake]

theorem toList_toString (n : Nat) : (toString n).toList = Nat.toDigits 10 n := by
  rw [Nat.toString_eq_ofList_toDigits, String.toList_ofList]

/-- A number is written with at least one digit and with nothing else. -/
theorem exists_toDigits (n : Nat) : ∃ c cs, Nat.toDigits 10 n = c :: cs ∧ c.isDigit = true := by
  obtain ⟨c, cs, h⟩ := List.exists_cons_of_ne_nil (Nat.toDigits_ne_nil (n := n) (b := 10))
  have hc : c ∈ Nat.toDigits 10 n := h ▸ List.mem_cons_self
  exact ⟨c, cs, h, Nat.isDigit_of_mem_toDigits (by decide) (by decide) hc⟩

theorem ne_of_isDigit {c : Char} (hc : c.isDigit = true) (mark : Char)
    (hmark : mark.isDigit = false) : c ≠ mark := by
  rintro rfl
  rw [hc] at hmark
  cases hmark

theorem toList_toString_int (e : Int) :
    (toString e).toList = (if e < 0 then ['-'] else []) ++ Nat.toDigits 10 e.natAbs := by
  cases e with
  | ofNat m => exact toList_toString m
  | negSucc m =>
    have happend : toString (Int.negSucc m) = "-" ++ toString (m + 1) := rfl
    rw [happend, String.toList_append, toList_toString, if_pos (Int.negSucc_lt_zero m)]
    rfl

/-- A written exponent is read back. -/
theorem exponent?_toString (e : Int) : exponent? (toString e).toList = some e := by
  rw [toList_toString_int, exponent?]
  by_cases he : e < 0
  · simp only [if_pos he, List.singleton_append, splitSign, digits?_toDigits]
    refine congrArg some ?_
    show -(e.natAbs : Int) = e
    omega
  · obtain ⟨c, cs, hdigits, hc⟩ := exists_toDigits e.natAbs
    have hsplit : splitSign (Nat.toDigits 10 e.natAbs) = (false, Nat.toDigits 10 e.natAbs) := by
      have hminus : c ≠ '-' := ne_of_isDigit hc _ rfl
      have hplus : c ≠ '+' := ne_of_isDigit hc _ rfl
      rw [hdigits]
      simp [splitSign, hminus, hplus]
    simp only [if_neg he, List.nil_append, hsplit, digits?_toDigits]
    refine congrArg some ?_
    show (e.natAbs : Int) = e
    omega

namespace Number

/-- The digits and the exponent of a number, without its sign. -/
def body (n : Number) : List Char :=
  Nat.toDigits 10 n.magnitude.mantissa ++
    if n.integral then [] else 'e' :: (toString n.magnitude.exponent).toList

theorem toList_render (n : Number) :
    n.render.toList = (if n.negative then ['-'] else []) ++ n.body := by
  unfold render body
  cases n.negative <;> cases n.integral <;> simp

/-- An exact number is read back from its digits and exponent. -/
theorem unsigned?_body {n : Number} (h : n.Exact) : unsigned? n.negative n.body = some n := by
  obtain ⟨negative, integral, mantissa, exponent⟩ := n
  have hdigit : ∀ c ∈ Nat.toDigits 10 mantissa, c.isDigit = true := fun c =>
    Nat.isDigit_of_mem_toDigits (by decide) (by decide)
  have hmark : ∀ c ∈ Nat.toDigits 10 mantissa, isExponentMark c = false := by
    intro c hc
    have he : c ≠ 'e' := ne_of_isDigit (hdigit c hc) _ rfl
    have hE : c ≠ 'E' := ne_of_isDigit (hdigit c hc) _ rfl
    simp [isExponentMark, he, hE]
  have hpoint : ∀ c ∈ Nat.toDigits 10 mantissa, (c == '.') = false := by
    intro c hc
    exact beq_false_of_ne (ne_of_isDigit (hdigit c hc) _ rfl)
  have hwhole := whole?_toDigits mantissa
  rw [digitValues?_toDigits] at hwhole
  cases integral with
  | true =>
    obtain rfl : exponent = 0 := h.whole rfl
    simp only [body, if_true, List.append_nil, unsigned?, cutAt_of_forall hmark,
      cutAt_of_forall hpoint, hwhole, Option.bind_eq_bind, Option.bind_some, ofWord_toDigits h.fits]
    rfl
  | false =>
    have hcut :
      cutAt isExponentMark (Nat.toDigits 10 mantissa ++ 'e' :: (toString exponent).toList) =
        (Nat.toDigits 10 mantissa, some (toString exponent).toList) := cutAt_append hmark rfl
    simp only [body, Bool.false_eq_true, if_false, unsigned?, hcut, cutAt_of_forall hpoint, hwhole,
      exponent?_toString, Option.bind_eq_bind, Option.bind_some, ofWord_toDigits h.fits]
    rfl

theorem ofWord?_minus (cs : List Char) : ofWord? ('-' :: cs) = (unsigned? true cs).map .number := by
  have ht : '-' :: cs ≠ "true".toList := by simp
  have hf : '-' :: cs ≠ "false".toList := by simp
  have hn : '-' :: cs ≠ "null".toList := by simp
  exact (if_neg ht).trans ((if_neg hf).trans (if_neg hn))

theorem ofWord?_of_isDigit {c : Char} (hc : c.isDigit = true) (cs : List Char) :
    ofWord? (c :: cs) = (unsigned? false (c :: cs)).map .number := by
  have ht : c :: cs ≠ "true".toList := by simp [ne_of_isDigit hc 't' rfl]
  have hf : c :: cs ≠ "false".toList := by simp [ne_of_isDigit hc 'f' rfl]
  have hn : c :: cs ≠ "null".toList := by simp [ne_of_isDigit hc 'n' rfl]
  refine (if_neg ht).trans ((if_neg hf).trans ((if_neg hn).trans ?_))
  split
  · rename_i h
    exact absurd (List.cons.inj h).1 (ne_of_isDigit hc _ rfl)
  · rfl

/-- A number is read from the word that is written for it. -/
theorem ofWord?_render {n : Number} (h : n.Exact) : ofWord? n.render.toList = some (.number n) := by
  obtain ⟨c, cs, hdigits, hc⟩ := exists_toDigits n.magnitude.mantissa
  obtain ⟨rest, hbody⟩ : ∃ rest, n.body = c :: rest := ⟨_, by rw [body, hdigits, List.cons_append]⟩
  have hnumber := unsigned?_body h
  rw [toList_render]
  cases hneg : n.negative with
  | true =>
    rw [hneg] at hnumber
    rw [if_pos rfl, List.singleton_append, ofWord?_minus, hnumber]
    rfl
  | false =>
    rw [hneg, hbody] at hnumber
    rw [if_neg Bool.false_ne_true, List.nil_append, hbody, ofWord?_of_isDigit hc, hnumber]
    rfl

theorem isWordChar_of_isDigit {c : Char} (hc : c.isDigit = true) : isWordChar c = true := by
  simp [isWordChar, Char.isAlphanum, hc]

/-- A written number is one word. -/
theorem isWordChar_render (n : Number) : ∀ c ∈ n.render.toList, isWordChar c = true := by
  have hdigits : ∀ m : Nat, ∀ c ∈ Nat.toDigits 10 m, isWordChar c = true := fun m c hc =>
    isWordChar_of_isDigit (Nat.isDigit_of_mem_toDigits (by decide) (by decide) hc)
  have hminus : ∀ (p : Prop) [Decidable p], ∀ c ∈ if p then ['-'] else [], isWordChar c = true := by
    intro p _ c hc
    split at hc
    · rw [List.mem_singleton.mp hc]
      rfl
    · cases hc
  intro c hc
  rw [toList_render, body, List.mem_append, List.mem_append] at hc
  rcases hc with hc | hc | hc
  · exact hminus _ c hc
  · exact hdigits _ c hc
  · split at hc
    · cases hc
    · rw [toList_toString_int] at hc
      rcases List.mem_cons.mp hc with rfl | hc
      · rfl
      · exact (List.mem_append.mp hc).elim (hminus _ c) (hdigits _ c)

end Number

/-! ## Tokens -/

/-- What may follow a word: nothing, or punctuation. -/
def Delimits (rest : List Char) : Prop := ∀ c ∈ rest.head?, (punctuation? c).isSome = true

theorem scan_punctuation {c : Char} {token : Token} (h : punctuation? c = some token)
    (done : List Token) (cs : List Char) :
    scan done .between (c :: cs) = scan (token :: done) .between cs := by
  unfold punctuation? at h
  split at h <;> cases h <;> rfl

theorem isWordChar_of_punctuation {c : Char} (h : (punctuation? c).isSome = true) :
    isWordChar c = false ∧ isBlank c = false := by
  unfold punctuation? at h
  split at h <;> first | exact ⟨rfl, rfl⟩ | cases h

/-- A word goes on up to what delimits it. -/
theorem scan_word {done : List Token} {rest : List Char} (hrest : Delimits rest) {token : Token}
    {rev word : List Char} (hchars : ∀ c ∈ word, isWordChar c = true)
    (h : ofWord? (rev.reverse ++ word) = some token) :
    scan done (.word rev) (word ++ rest) = scan (token :: done) .between rest := by
  induction word generalizing rev with
  | nil =>
    rw [List.append_nil] at h
    cases rest with
    | nil => simp [scan, h]
    | cons c cs =>
      have hc := hrest c rfl
      obtain ⟨hword, hblank⟩ := isWordChar_of_punctuation hc
      obtain ⟨next, hnext⟩ := Option.isSome_iff_exists.mp hc
      rw [List.nil_append, scan_punctuation hnext]
      simp [scan, hword, hblank, h, hnext]
  | cons c word ih =>
    obtain ⟨hc, hchars⟩ := List.forall_mem_cons.mp hchars
    rw [List.cons_append, scan, if_pos hc]
    refine ih hchars ?_
    rw [List.reverse_cons, List.append_assoc]
    exact h

theorem scan_start_word {c : Char} (hc : isWordChar c = true) (done : List Token) (cs : List Char) :
    scan done .between (c :: cs) = scan done (.word [c]) cs := by
  have hblank : isBlank c = false := by
    refine Bool.eq_false_iff.mpr fun h => ?_
    simp only [isBlank, Bool.or_eq_true, beq_iff_eq] at h
    rcases h with ((rfl | rfl) | rfl) | rfl <;> cases hc
  have hquote : (c == '"') = false := by
    refine beq_false_of_ne ?_
    rintro rfl
    cases hc
  simp [scan, hblank, hquote, hc]

/-! ## Strings -/

/-- An escaped character is read as itself. -/
theorem scan_escape (done : List Token) (t : PartialText) (c : Char) (cs : List Char) :
    scan done (.string t) ((escape c).toList ++ cs) = scan done (.string (t.push c)) cs := by
  unfold escape
  by_cases hquote : c = '"'
  · subst hquote
    rfl
  · by_cases hslash : c = '\\'
    · subst hslash
      rfl
    · rw [if_neg (by simpa using hquote), if_neg (by simpa using hslash)]
      split
      · rename_i hlow
        have hlt : c.toNat < 32 := by simpa [Char.lt_def, UInt32.lt_iff_toNat_lt] using hlow
        have hdigits : ∀ n < 32,
            digits? 16 ['0', '0', hexDigit (n / 16), hexDigit (n % 16)] = some n := by decide
        have hunit : t.pushUnit c.toNat = t.push c := by
          rw [PartialText.pushUnit, if_neg, if_neg, Char.ofNat_toNat]
          · simp
            omega
          · simp
            omega
        rw [String.toList_ofList]
        simp only [List.cons_append, List.nil_append, scan, hdigits _ hlt, hunit]
      · rename_i hhigh
        rw [Char.toString_eq_singleton, String.toList_singleton, List.singleton_append]
        simp [scan, hslash, hhigh]

theorem finish_foldl_push (cs : List Char) {t : PartialText} (hsound : t.sound = true)
    (hpending : t.pending = none) :
    (cs.foldl PartialText.push t).finish = some (String.ofList (t.chars.reverse ++ cs)) := by
  induction cs generalizing t with
  | nil => simp [PartialText.finish, hsound, hpending]
  | cons c cs ih =>
    rw [List.foldl_cons, ih (by simp [PartialText.push, hsound, hpending]) rfl]
    simp [PartialText.push]

theorem toList_quote (s : String) :
    (quote s).toList = '"' :: ((s.toList.flatMap fun c => (escape c).toList) ++ ['"']) := by
  have hfold : ∀ (cs : List Char) (out : String),
      (cs.foldl (fun acc c => acc ++ escape c) out).toList =
        out.toList ++ cs.flatMap fun c => (escape c).toList := by
    intro cs
    induction cs with
    | nil => simp
    | cons c cs ih =>
      intro out
      rw [List.foldl_cons, ih, String.toList_append, List.flatMap_cons, List.append_assoc]
  rw [quote, String.toList_append, String.foldl_eq_foldl_toList, hfold]
  rfl

/-- A quoted text is read as the text. -/
theorem scan_quote (done : List Token) (s : String) (rest : List Char) :
    scan done .between ((quote s).toList ++ rest) =
      scan (.string (some s) :: done) .between rest := by
  have hchars : ∀ (cs : List Char) (t : PartialText),
      scan done (.string t) ((cs.flatMap fun c => (escape c).toList) ++ '"' :: rest) =
        scan (.string (cs.foldl PartialText.push t).finish :: done) .between rest := by
    intro cs
    induction cs with
    | nil => exact fun t => rfl
    | cons c cs ih =>
      intro t
      rw [List.flatMap_cons, List.append_assoc, scan_escape, ih, List.foldl_cons]
  have hopen : ∀ cs, scan done .between ('"' :: cs) = scan done (.string {}) cs := fun _ => rfl
  rw [toList_quote, List.cons_append, List.append_assoc, List.singleton_append, hopen, hchars,
    finish_foldl_push _ rfl rfl]
  simp

/-! ## Values -/

mutual

/-- All numbers in a value can be read back. -/
def Exact : Json → Prop
  | .number n => n.Exact
  | .array items => listExact items
  | .object entries => entriesExact entries
  | .null | .bool _ | .string _ => True

def listExact : List Json → Prop
  | [] => True
  | j :: rest => j.Exact ∧ listExact rest

def entriesExact : List (String × Json) → Prop
  | [] => True
  | (_, j) :: rest => j.Exact ∧ entriesExact rest

end

@[simp] theorem exact_null : Json.null.Exact := trivial

@[simp] theorem exact_bool (b : Bool) : (Json.bool b).Exact := trivial

@[simp] theorem exact_string (s : String) : (Json.string s).Exact := trivial

@[simp] theorem exact_array {items : List Json} : (Json.array items).Exact ↔
    ∀ j ∈ items, j.Exact := by
  rw [Exact]
  induction items with
  | nil => simp [listExact]
  | cons j items ih => simp [listExact, ih]

theorem exact_object {entries : List (String × Json)} :
    (Json.object entries).Exact ↔ ∀ e ∈ entries, e.2.Exact := by
  rw [Exact]
  induction entries with
  | nil => simp [entriesExact]
  | cons e entries ih => simp [entriesExact, ih]

/-- Numbers of 32 bits can be read back. -/
@[simp] theorem exact_ofNat (n : UInt32) : (Json.ofNat n.toNat).Exact := by
  have hn : n.toNat < 2 ^ 32 := n.toNat_lt
  have hlimit : 2 ^ 32 < Decimal.doubleLimit := by decide +kernel
  refine ⟨Nat.lt_trans hn (by decide), fun _ => rfl, ?_⟩
  have hdouble : nearestDouble n.toNat = n.toNat :=
    nearestDouble_of_lt (Nat.lt_trans hn (by decide))
  have hone : nearestDouble (Nat.pow 10 0) = 1 := nearestDouble_of_lt (by decide)
  show (if n.toNat = 0 then false else
    if 308 < 0 then true
    else decide (Decimal.doubleLimit ≤ nearestDouble n.toNat * nearestDouble (Nat.pow 10 0))) =
      false
  rw [hdouble, hone, Nat.mul_one]
  simp
  omega

/-- The text written so far brings the reader to a state, provided that what is written next
satisfies `follows`. -/
def Arrives (follows : List Char → Prop) (out : String) (a : Awaiting) : Prop :=
  ∃ tokens : List Token,
    (∀ rest, follows rest →
      scan [] .between (out.toList ++ rest) = scan tokens.reverse .between rest) ∧
    tokens.foldlM (Awaiting.step none .whole) (.value [] false) = some a

namespace Arrives

variable {follows : List Char → Prop} {out : String} {a a' : Awaiting}

theorem start : Arrives (fun _ => True) "" (.value [] false) := ⟨[], fun _ _ => rfl, rfl⟩

theorem delimited (h : Arrives (fun _ => True) out a) : Arrives Delimits out a := by
  obtain ⟨tokens, hscan, hsteps⟩ := h
  exact ⟨tokens, fun rest _ => hscan rest trivial, hsteps⟩

/-- One more token is read from what is written next. -/
theorem token (h : Arrives follows out a) {text : String} {token : Token}
    {follows' : List Char → Prop} (hstep : a.step none .whole token = some a')
    (hfollows : ∀ rest, follows' rest → follows (text.toList ++ rest))
    (hscan : ∀ done rest, follows' rest →
      scan done .between (text.toList ++ rest) = scan (token :: done) .between rest) :
    Arrives follows' (out ++ text) a' := by
  obtain ⟨tokens, hbefore, hsteps⟩ := h
  refine ⟨tokens ++ [token], fun rest hrest => ?_, ?_⟩
  · rw [String.toList_append, List.append_assoc, hbefore _ (hfollows rest hrest),
      hscan _ rest hrest, List.reverse_append, List.reverse_singleton, List.singleton_append]
  · rw [List.foldlM_append, hsteps]
    simp [hstep]

/-- Punctuation takes the reader one token further. -/
theorem punctuation (h : Arrives Delimits out a) (text : String) (c : Char) {token : Token}
    (htext : text.toList = [c]) (htoken : punctuation? c = some token)
    (hstep : a.step none .whole token = some a') : Arrives (fun _ => True) (out ++ text) a' := by
  refine h.token hstep (fun rest _ => ?_) fun done rest _ => ?_
  · rw [htext]
    intro c' hc
    cases hc
    rw [htoken]
    rfl
  · rw [htext]
    exact scan_punctuation htoken done rest

/-- A word takes the reader one token further, once something delimits it. -/
theorem word (h : Arrives (fun _ => True) out a) {text : String} {token : Token}
    (hchars : text.toList.all isWordChar = true) (htoken : ofWord? text.toList = some token)
    (hstep : a.step none .whole token = some a') : Arrives Delimits (out ++ text) a' := by
  refine h.token hstep (fun _ _ => trivial) fun done rest hrest => ?_
  cases hword : text.toList with
  | nil =>
    rw [hword] at htoken
    cases htoken
  | cons c cs =>
    rw [hword] at hchars htoken
    obtain ⟨hc, hcs⟩ := List.forall_mem_cons.mp (List.all_eq_true.mp hchars)
    rw [List.cons_append, scan_start_word hc]
    exact scan_word hrest hcs htoken

/-- A quoted text takes the reader one token further. -/
theorem quote (h : Arrives (fun _ => True) out a) (s : String)
    (hstep : a.step none .whole (.string (some s)) = some a') :
    Arrives (fun _ => True) (out ++ Json.quote s) a' :=
  h.token hstep (fun _ _ => trivial) fun done rest _ => scan_quote done s rest

end Arrives

/-- A value that is neither array nor object is complete with its token. -/
theorem step_value {stack : List Frame} {orEnd : Bool} {token : Token} {j : Json}
    (hstack : Awaiting.interest .whole stack = some .whole) (h : token.value? = some j) :
    Awaiting.step none .whole (.value stack orEnd) token = Awaiting.complete stack (some j) := by
  have hatom : Awaiting.atom stack true token.value? = Awaiting.complete stack (some j) := by
    rw [h]
    rfl
  cases token with
  | null | bool | number | string =>
    simp only [Awaiting.step, hstack]
    exact hatom
  | _ => cases h

/-- A key and its colon bring the reader to the value of the entry. -/
theorem Arrives.key {out : String} {orEnd : Bool} {stack : List Frame}
    {rev : List (String × Json)} {old : String}
    (h : Arrives (fun _ => True) out (.key (.object (some .whole) rev old :: stack) orEnd))
    (k : String) :
    Arrives (fun _ => True) (out ++ Json.quote k ++ ":")
      (.value (.object (some .whole) rev k :: stack) false) :=
  (h.quote k rfl).delimited.punctuation ":" ':' rfl rfl rfl

mutual

/-- Writing a value brings the reader from where a value may come to where it is complete. -/
theorem arrives_renderOnto (j : Json) (hj : j.Exact) {out : String} {stack : List Frame}
    {orEnd : Bool} {a : Awaiting} (hstack : Awaiting.interest .whole stack = some .whole)
    (h : Arrives (fun _ => True) out (.value stack orEnd))
    (ha : Awaiting.complete stack (some j) = some a) : Arrives Delimits (renderOnto out j) a := by
  cases j with
  | null =>
    rw [renderOnto]
    exact h.word rfl rfl ((step_value hstack rfl).trans ha)
  | bool b =>
    have hstep : Awaiting.step none .whole (.value stack orEnd) (.bool b) = some a :=
      (step_value hstack rfl).trans ha
    cases b with
    | true =>
      rw [renderOnto]
      exact h.word rfl rfl hstep
    | false =>
      rw [renderOnto]
      exact h.word rfl rfl hstep
  | number n =>
    have hvalue : (Token.number n).value? = some (.number n) := by simp [Token.value?, hj.finite]
    rw [renderOnto]
    exact h.word (List.all_eq_true.mpr n.isWordChar_render) (Number.ofWord?_render hj)
      ((step_value hstack hvalue).trans ha)
  | string s =>
    rw [renderOnto]
    exact (h.quote s ((step_value hstack rfl).trans ha)).delimited
  | array items =>
    -- An array pushes its frame, and the items are then read inside it.
    have hopen : Arrives (fun _ => True) (out ++ "[")
        (.value (.array (some .whole) [] :: stack) true) := by
      refine h.delimited.punctuation "[" '[' rfl rfl ?_
      simp [Awaiting.step, hstack]
    cases items with
    | nil =>
      have hclose := hopen.delimited.punctuation "]" ']' rfl rfl ha
      rw [String.append_assoc] at hclose
      rw [renderOnto]
      exact hclose.delimited
    | cons j rest =>
      obtain ⟨hj, hrest⟩ := hj
      have hitems := arrives_renderItems rest hrest (arrives_renderOnto j hj rfl hopen rfl)
      rw [renderOnto]
      refine (hitems.punctuation "]" ']' rfl rfl ?_).delimited
      simpa [Awaiting.step, Awaiting.closeArray, Frame.add] using ha
  | object entries =>
    -- So does an object, which waits for a key first.
    have hopen : Arrives (fun _ => True) (out ++ "\x7b")
        (.key (.object (some .whole) [] "" :: stack) true) := by
      refine h.delimited.punctuation "\x7b" '\x7b' rfl rfl ?_
      simp [Awaiting.step, hstack]
    cases entries with
    | nil =>
      have hclose := hopen.delimited.punctuation "\x7d" '\x7d' rfl rfl ha
      rw [String.append_assoc] at hclose
      rw [renderOnto]
      exact hclose.delimited
    | cons e rest =>
      obtain ⟨k, j⟩ := e
      obtain ⟨hj, hrest⟩ := hj
      obtain ⟨key, hentries⟩ :=
        arrives_renderEntries rest hrest (arrives_renderOnto j hj rfl (hopen.key k) rfl)
      rw [renderOnto]
      refine (hentries.punctuation "\x7d" '\x7d' rfl rfl ?_).delimited
      simpa [Awaiting.step, Awaiting.closeObject, Frame.add] using ha

/-- Further items are added to the array that is open. -/
theorem arrives_renderItems (items : List Json) (hitems : listExact items) {out : String}
    {rev : List Json} {stack : List Frame}
    (h : Arrives Delimits out (.comma (.array (some .whole) rev :: stack))) :
    Arrives Delimits (renderItems out items)
      (.comma (.array (some .whole) (items.reverse ++ rev) :: stack)) := by
  cases items with
  | nil => exact h
  | cons j rest =>
    obtain ⟨hj, hrest⟩ := hitems
    have hcomma := h.punctuation "," ',' rfl rfl rfl
    have hrest := arrives_renderItems rest hrest (arrives_renderOnto j hj rfl hcomma rfl)
    rw [renderItems]
    simpa [Frame.add] using hrest

/-- Further entries are added to the object that is open. -/
theorem arrives_renderEntries (entries : List (String × Json)) (hentries : entriesExact entries)
    {out : String} {rev : List (String × Json)} {key : String} {stack : List Frame}
    (h : Arrives Delimits out (.comma (.object (some .whole) rev key :: stack))) :
    ∃ key', Arrives Delimits (renderEntries out entries)
      (.comma (.object (some .whole) (entries.reverse ++ rev) key' :: stack)) := by
  cases entries with
  | nil => exact ⟨key, h⟩
  | cons e rest =>
    obtain ⟨k, j⟩ := e
    obtain ⟨hj, hrest⟩ := hentries
    have hcomma := h.punctuation "," ',' rfl rfl rfl
    obtain ⟨key', hrest⟩ :=
      arrives_renderEntries rest hrest (arrives_renderOnto j hj rfl (hcomma.key k) rfl)
    rw [renderEntries]
    exact ⟨key', by simpa [Frame.add] using hrest⟩

end

/-- What is written is read back. -/
theorem read?_render (j : Json) (hj : j.Exact) : read? none .whole j.render = some j := by
  obtain ⟨tokens, hscan, hsteps⟩ := arrives_renderOnto j hj rfl .start rfl
  have htokens : tokens? j.render = some tokens := by
    have hall := hscan [] fun c hc => by cases hc
    rw [List.append_nil] at hall
    rw [tokens?, render, hall, scan, List.reverse_reverse]
  simp [read?, htokens, hsteps]

end MethodFlow.Json
