import MethodFlow.Json.Reader

/-!
# Reading less than the whole

A reader that is interested in parts of a value only, and allows only so many open arrays and
objects, is compared with one that keeps everything. What the first has in its frames is the kept
part (`Interest.keep`) of what the second has there, token by token. The limit is no obstacle, as
long as the value that the second ends up with nests no deeper: the stack is never higher than the
value is deep.

Main result: `Json.read?_keep`, that the first reader gives the kept part of what the second one
gives.
-/

namespace MethodFlow.Json

/-! ## The kept part of a value -/

mutual

/-- The part of a value in which there is interest. -/
def Interest.keep : Interest → Json → Json
  | i, .array js => .array (Interest.keepItems i 0 js)
  | i, .object es => .object (Interest.keepEntries i es)
  | _, .null => .null
  | _, .bool b => .bool b
  | _, .number n => .number n
  | _, .string s => .string s

/-- The kept parts of items that begin at a position of an array. -/
def Interest.keepItems : Interest → Nat → List Json → List Json
  | _, _, [] => []
  | i, k, j :: rest => Interest.keep (i.item k) j :: Interest.keepItems i (k + 1) rest

def Interest.keepEntries : Interest → List (String × Json) → List (String × Json)
  | _, [] => []
  | i, (key, j) :: rest =>
    match i.field? key with
    | some i' => (key, Interest.keep i' j) :: Interest.keepEntries i rest
    | none => Interest.keepEntries i rest

end

namespace Interest

theorem keepItems_append (i : Interest) (k : Nat) (xs ys : List Json) :
    i.keepItems k (xs ++ ys) = i.keepItems k xs ++ i.keepItems (k + xs.length) ys := by
  induction xs generalizing k with
  | nil => rfl
  | cons x xs ih =>
    rw [List.cons_append, keepItems, keepItems, ih, List.length_cons, Nat.add_right_comm,
      Nat.add_assoc, List.cons_append]

theorem length_keepItems (i : Interest) (k : Nat) (xs : List Json) :
    (i.keepItems k xs).length = xs.length := by
  induction xs generalizing k with
  | nil => rfl
  | cons x xs ih => rw [keepItems, List.length_cons, List.length_cons, ih]

/-- The kept part of an entry, if its key is of interest. -/
def keepPair? (i : Interest) (e : String × Json) : Option (String × Json) :=
  (i.field? e.1).map fun i' => (e.1, i'.keep e.2)

theorem keepEntries_eq (i : Interest) (entries : List (String × Json)) :
    i.keepEntries entries = entries.filterMap i.keepPair? := by
  induction entries with
  | nil => rfl
  | cons e entries ih =>
    obtain ⟨key, j⟩ := e
    rw [keepEntries, List.filterMap_cons, keepPair?]
    cases i.field? key with
    | none => exact ih
    | some i' => exact congrArg _ ih

end Interest

/-! ## The machine that keeps everything -/

/-- The value of a token that is a value of its own. -/
def Token.value? : Token → Option Json
  | .null => some .null
  | .bool b => some (.bool b)
  | .number n => if n.magnitude.scalesOver then none else some (.number n)
  | .string s => s.map .string
  | _ => none

namespace Frame

def interest : Frame → Option Interest
  | .array interest _ => interest
  | .object interest _ _ => interest

end Frame

namespace Awaiting

def stack : Awaiting → List Frame
  | .value stack _ => stack
  | .key stack _ => stack
  | .colon stack => stack
  | .comma stack => stack
  | .done _ => []

/-- Everything is of interest. -/
def Whole (a : Awaiting) : Prop := ∀ f ∈ a.stack, f.interest = some .whole

/-- What a token does where everything is of interest and there is no limit. -/
inductive Move : Awaiting → Token → Awaiting → Prop
  | atom {stack : List Frame} {orEnd : Bool} {t : Token} {j : Json} {a : Awaiting}
      (ht : t.value? = some j) (h : complete stack (some j) = some a) :
        Move (.value stack orEnd) t a
  | openArray {stack : List Frame} {orEnd : Bool} :
      Move (.value stack orEnd) .openArray (.value (.array (some .whole) [] :: stack) true)
  | openObject {stack : List Frame} {orEnd : Bool} :
      Move (.value stack orEnd) .openObject (.key (.object (some .whole) [] "" :: stack) true)
  | closeEmptyArray {rev : List Json} {stack : List Frame} {a : Awaiting}
      (h : complete stack (some (.array rev.reverse)) = some a) :
      Move (.value (.array (some .whole) rev :: stack) true) .closeArray a
  | closeArray {rev : List Json} {stack : List Frame} {a : Awaiting}
      (h : complete stack (some (.array rev.reverse)) = some a) :
      Move (.comma (.array (some .whole) rev :: stack)) .closeArray a
  | closeEmptyObject {rev : List (String × Json)} {key : String} {stack : List Frame} {a : Awaiting}
      (h : complete stack (some (.object rev.reverse)) = some a) :
      Move (.key (.object (some .whole) rev key :: stack) true) .closeObject a
  | closeObject {rev : List (String × Json)} {key : String} {stack : List Frame} {a : Awaiting}
      (h : complete stack (some (.object rev.reverse)) = some a) :
      Move (.comma (.object (some .whole) rev key :: stack)) .closeObject a
  | key {rev : List (String × Json)} {old key : String} {stack : List Frame} {orEnd : Bool} :
      Move (.key (.object (some .whole) rev old :: stack) orEnd) (.string (some key))
        (.colon (.object (some .whole) rev key :: stack))
  | colon {stack : List Frame} : Move (.colon stack) .colon (.value stack false)
  | nextItem {rev : List Json} {stack : List Frame} :
      Move (.comma (.array (some .whole) rev :: stack)) .comma
        (.value (.array (some .whole) rev :: stack) false)
  | nextKey {rev : List (String × Json)} {key : String} {stack : List Frame} :
      Move (.comma (.object (some .whole) rev key :: stack)) .comma
        (.key (.object (some .whole) rev key :: stack) false)

theorem interest_of_whole {stack : List Frame} (h : ∀ f ∈ stack, f.interest = some .whole) :
    interest .whole stack = some .whole := by
  cases stack with
  | nil => rfl
  | cons f stack =>
    have hf : f.interest = some .whole := h f List.mem_cons_self
    cases f with
    | array i rev =>
      rw [show i = some .whole from hf]
      rfl
    | object i rev key =>
      rw [show i = some .whole from hf]
      rfl

theorem closeArray_of_whole {stack : List Frame} {a : Awaiting}
    (hw : ∀ f ∈ stack, f.interest = some .whole) (h : closeArray stack = some a) :
    ∃ rev rest, stack = .array (some .whole) rev :: rest ∧
      complete rest (some (.array rev.reverse)) = some a := by
  match stack, h with
  | .array i rev :: rest, h =>
    have hi : i = some .whole := hw _ List.mem_cons_self
    subst hi
    exact ⟨rev, rest, rfl, h⟩

theorem closeObject_of_whole {stack : List Frame} {a : Awaiting}
    (hw : ∀ f ∈ stack, f.interest = some .whole) (h : closeObject stack = some a) :
    ∃ rev key rest, stack = .object (some .whole) rev key :: rest ∧
      complete rest (some (.object rev.reverse)) = some a := by
  match stack, h with
  | .object i rev old :: rest, h =>
    have hi : i = some .whole := hw _ List.mem_cons_self
    subst hi
    exact ⟨rev, old, rest, rfl, h⟩

/-- A machine that keeps everything makes a move with each token. -/
theorem Whole.move {a a' : Awaiting} {t : Token} (hw : a.Whole)
    (h : step none .whole a t = some a') :
    a.Move t a' := by
  -- By what is awaited, then by the token: all pairs but those of a move are refused.
  cases a with
  | value stack orEnd =>
    have hi : interest .whole stack = some .whole := interest_of_whole hw
    cases t with
    | openArray =>
      rw [step, hi] at h
      cases h
      exact .openArray
    | openObject =>
      rw [step, hi] at h
      cases h
      exact .openObject
    | closeArray =>
      cases orEnd with
      | false => exact nomatch h
      | true =>
        obtain ⟨rev, rest, rfl, h⟩ := closeArray_of_whole hw h
        exact .closeEmptyArray h
    | closeObject | comma | colon => exact nomatch h
    | null =>
      rw [step, hi] at h
      exact .atom rfl h
    | bool b =>
      rw [step, hi] at h
      exact .atom rfl h
    | number n | string s =>
      rw [step, hi] at h
      obtain ⟨j, hj, h⟩ := Option.bind_eq_some_iff.mp h
      exact .atom hj h
  | key stack orEnd =>
    cases t with
    | closeObject =>
      cases orEnd with
      | false => exact nomatch h
      | true =>
        obtain ⟨rev, old, rest, rfl, h⟩ := closeObject_of_whole hw h
        exact .closeEmptyObject h
    | string s =>
      match s, stack, h with
      | some s, .object i rev old :: rest, h =>
        have hi : i = some .whole := hw _ List.mem_cons_self
        subst hi
        cases h
        exact .key
      | none, .object (some i) rev old :: rest, h => exact nomatch h
      | none, .object none rev old :: rest, _ => exact nomatch hw _ List.mem_cons_self
    | _ => exact nomatch h
  | colon stack =>
    cases t with
    | colon =>
      cases h
      exact .colon
    | _ => exact nomatch h
  | comma stack =>
    cases t with
    | closeArray =>
      obtain ⟨rev, rest, rfl, h⟩ := closeArray_of_whole hw h
      exact .closeArray h
    | closeObject =>
      obtain ⟨rev, old, rest, rfl, h⟩ := closeObject_of_whole hw h
      exact .closeObject h
    | comma =>
      match stack, h with
      | .array i rev :: rest, h =>
        have hi : i = some .whole := hw _ List.mem_cons_self
        subst hi
        cases h
        exact .nextItem
      | .object i rev old :: rest, h =>
        have hi : i = some .whole := hw _ List.mem_cons_self
        subst hi
        cases h
        exact .nextKey
    | _ => exact nomatch h
  | done j => exact nomatch h

theorem interest_add (f : Frame) (j : Option Json) : (f.add j).interest = f.interest := by
  cases f <;> cases j <;> rfl

theorem whole_complete {stack : List Frame} {j : Json} {a : Awaiting}
    (hw : ∀ f ∈ stack, f.interest = some .whole) (h : complete stack (some j) = some a) :
      a.Whole := by
  cases stack with
  | nil =>
    cases h
    exact nofun
  | cons f rest =>
    cases h
    intro f' hf
    rcases List.mem_cons.mp hf with rfl | hf
    · rw [interest_add]
      exact hw f List.mem_cons_self
    · exact hw f' (List.mem_cons_of_mem _ hf)

/-- Every move keeps what is kept whole. -/
theorem Move.whole {a a' : Awaiting} {t : Token} (h : a.Move t a') (hw : a.Whole) : a'.Whole := by
  cases h with
  | atom ht h => exact whole_complete hw h
  | openArray | openObject => exact List.forall_mem_cons.mpr ⟨rfl, hw⟩
  | closeEmptyArray h => exact whole_complete (List.forall_mem_cons.mp hw).2 h
  | closeArray h => exact whole_complete (List.forall_mem_cons.mp hw).2 h
  | closeEmptyObject h | closeObject h => exact whole_complete (List.forall_mem_cons.mp hw).2 h
  | key => exact List.forall_mem_cons.mpr ⟨rfl, (List.forall_mem_cons.mp hw).2⟩
  | colon | nextItem | nextKey => exact hw

/-! ## The height of the stack -/

end Awaiting

/-- How deeply the parts of an open array or object nest so far. -/
def Frame.depth : Frame → Nat
  | .array _ rev => listDepth rev
  | .object _ rev _ => entriesDepth rev

/-- How deeply the value will nest at least, given what is open. -/
def Frame.height : List Frame → Nat
  | [] => 0
  | f :: rest => max (rest.length + 1 + f.depth) (Frame.height rest)

namespace Awaiting

def height : Awaiting → Nat
  | .done j => j.depth
  | a => Frame.height a.stack

theorem length_le_height (a : Awaiting) : a.stack.length ≤ a.height := by
  have hstack : ∀ stack : List Frame, stack.length ≤ Frame.height stack := by
    intro stack
    cases stack with
    | nil => exact Nat.le_refl 0
    | cons f rest =>
      rw [Frame.height, List.length_cons]
      omega
  cases a with
  | done j => exact Nat.zero_le _
  | _ => exact hstack _

theorem listDepth_reverse (items : List Json) : listDepth items.reverse = listDepth items := by
  have happend : ∀ (xs ys : List Json), listDepth (xs ++ ys) =
      max (listDepth xs) (listDepth ys) := by
    intro xs ys
    induction xs with
    | nil => rw [List.nil_append, listDepth, Nat.zero_max]
    | cons x xs ih => rw [List.cons_append, listDepth, listDepth, ih, Nat.max_assoc]
  induction items with
  | nil => rfl
  | cons j items ih =>
    rw [List.reverse_cons, happend, ih, listDepth, listDepth, listDepth, Nat.max_zero, Nat.max_comm]

theorem entriesDepth_reverse (entries : List (String × Json)) :
    entriesDepth entries.reverse = entriesDepth entries := by
  have happend : ∀ (xs ys : List (String × Json)),
      entriesDepth (xs ++ ys) = max (entriesDepth xs) (entriesDepth ys) := by
    intro xs ys
    induction xs with
    | nil => rw [List.nil_append, entriesDepth, Nat.zero_max]
    | cons x xs ih => rw [List.cons_append, entriesDepth, entriesDepth, ih, Nat.max_assoc]
  induction entries with
  | nil => rfl
  | cons e entries ih =>
    rw [List.reverse_cons, happend, ih, entriesDepth, entriesDepth, entriesDepth, Nat.max_zero,
      Nat.max_comm]

/-- Completing a value loses no height: what the value adds to the frame below is one level lower,
and nests one level deeper. -/
theorem le_height_complete {stack : List Frame} {j : Json} {a : Awaiting}
    (h : complete stack (some j) = some a) :
    max (stack.length + j.depth) (Frame.height stack) ≤ a.height := by
  cases stack with
  | nil =>
    cases h
    show max (0 + j.depth) 0 ≤ j.depth
    omega
  | cons f rest =>
    cases h
    show max (rest.length + 1 + j.depth) (max (rest.length + 1 + f.depth) (Frame.height rest)) ≤
      max (rest.length + 1 + (f.add (some j)).depth) (Frame.height rest)
    have hadd : (f.add (some j)).depth = max j.depth f.depth := by
      cases f <;> rfl
    omega

/-- No move lowers the height. -/
theorem Move.height_le {a a' : Awaiting} {t : Token} (h : a.Move t a') : a.height ≤ a'.height := by
  cases h with
  | atom ht h => exact Nat.le_trans (Nat.le_max_right _ _) (le_height_complete h)
  | openArray | openObject => exact Nat.le_max_right _ _
  | @closeEmptyArray rev stack a h | @closeArray rev stack a h =>
    have hle := le_height_complete h
    rw [depth, listDepth_reverse] at hle
    show max (stack.length + 1 + listDepth rev) (Frame.height stack) ≤ a'.height
    omega
  | @closeEmptyObject rev key stack a h | @closeObject rev key stack a h =>
    have hle := le_height_complete h
    rw [depth, entriesDepth_reverse] at hle
    show max (stack.length + 1 + entriesDepth rev) (Frame.height stack) ≤ a'.height
    omega
  | key | colon | nextItem | nextKey => exact Nat.le_refl _

/-! ## The machine that keeps a part -/

end Awaiting

/-- What a frame looks like to a reader with an interest of its own in it. -/
def Frame.keep (wanted : Option Interest) : Frame → Frame
  | .array _ rev => .array wanted (wanted.elim [] fun i => (i.keepItems 0 rev.reverse).reverse)
  | .object _ rev key => .object wanted (wanted.elim [] fun i => i.keepEntries rev) key

namespace Awaiting

/-- The interest in a frame follows from those below it. -/
def keepStack (top : Interest) : List Frame → List Frame
  | [] => []
  | f :: rest => f.keep (interest top (keepStack top rest)) :: keepStack top rest

def keep (top : Interest) : Awaiting → Awaiting
  | .value stack orEnd => .value (keepStack top stack) orEnd
  | .key stack orEnd => .key (keepStack top stack) orEnd
  | .colon stack => .colon (keepStack top stack)
  | .comma stack => .comma (keepStack top stack)
  | .done j => .done (top.keep j)

theorem length_keepStack (top : Interest) (stack : List Frame) :
    (keepStack top stack).length = stack.length := by
  induction stack with
  | nil => rfl
  | cons f rest ih => rw [keepStack, List.length_cons, List.length_cons, ih]

/-- A value that comes into a frame comes, as far as it is of interest, into what is kept of the
frame. -/
theorem keep_add (wanted : Option Interest) (f : Frame) (j : Json) :
    (f.add (some j)).keep wanted = (f.keep wanted).add ((f.keep wanted).next?.map (·.keep j)) := by
  cases wanted with
  | none => cases f <;> rfl
  | some i =>
    cases f with
    | array old rev =>
      show Frame.array (some i) (i.keepItems 0 (j :: rev).reverse).reverse = Frame.array (some i)
        ((i.item (i.keepItems 0 rev.reverse).reverse.length).keep j ::
          (i.keepItems 0 rev.reverse).reverse)
      rw [List.reverse_cons, Interest.keepItems_append, List.reverse_append, List.length_reverse,
        List.length_reverse, Interest.length_keepItems, List.length_reverse, Nat.zero_add]
      rfl
    | object old rev key =>
      show Frame.object (some i) (i.keepEntries ((key, j) :: rev)) key =
        (Frame.object (some i) (i.keepEntries rev) key).add ((i.field? key).map (·.keep j))
      rw [Interest.keepEntries]
      cases i.field? key <;> rfl

/-- A value that is complete is kept as far as the frames around it are interested. -/
theorem complete_keep (top : Interest) {stack : List Frame} {j : Json} {a : Awaiting}
    (h : complete stack (some j) = some a) :
    complete (keepStack top stack) ((interest top (keepStack top stack)).map (·.keep j)) =
      some (a.keep top) := by
  cases stack with
  | nil =>
    cases h
    rfl
  | cons f rest =>
    cases h
    show some (comma (_ :: _)) = some (comma (_ :: _))
    rw [keep_add]
    rfl

/-- A value that is neither array nor object is kept as it is or not at all. -/
theorem atom_keep (top : Interest) {stack : List Frame} {j : Json} {a : Awaiting}
    (hj : ∀ i : Interest, i.keep j = j) (h : complete stack (some j) = some a) :
    atom (keepStack top stack) (interest top (keepStack top stack)).isSome (some j) =
      some (a.keep top) := by
  have hk := complete_keep top h
  cases hi : interest top (keepStack top stack) with
  | none =>
    rw [hi] at hk
    exact hk
  | some i =>
    rw [hi, Option.map_some, hj] at hk
    exact hk

theorem closeArray_keep (top : Interest) {rev : List Json} {stack : List Frame} {a : Awaiting}
    (h : complete stack (some (.array rev.reverse)) = some a) :
    closeArray (keepStack top (.array (some .whole) rev :: stack)) = some (a.keep top) := by
  have hk := complete_keep top h
  rw [keepStack, Frame.keep, closeArray]
  cases hi : interest top (keepStack top stack) with
  | none =>
    rw [hi] at hk
    exact hk
  | some i =>
    rw [hi, Option.map_some, Interest.keep] at hk
    rw [Option.map_some, Option.elim_some, List.reverse_reverse]
    exact hk

theorem closeObject_keep (top : Interest) {rev : List (String × Json)} (key : String)
    {stack : List Frame} {a : Awaiting} (h : complete stack (some (.object rev.reverse)) = some a) :
    closeObject (keepStack top (.object (some .whole) rev key :: stack)) = some (a.keep top) := by
  have hk := complete_keep top h
  rw [keepStack, Frame.keep, closeObject]
  cases hi : interest top (keepStack top stack) with
  | none =>
    rw [hi] at hk
    exact hk
  | some i =>
    rw [hi, Option.map_some, Interest.keep, Interest.keepEntries_eq, List.filterMap_reverse,
      ← Interest.keepEntries_eq] at hk
    exact hk

/-- There is room for one more open array or object. -/
theorem roomLeft_keepStack (top : Interest) {stack : List Frame} {limit : Nat}
    (h : stack.length < limit) :
    ((interest top (keepStack top stack)).isNone ||
      (some limit).all ((keepStack top stack).length < ·)) = true := by
  rw [length_keepStack, Bool.or_eq_true]
  exact Or.inr (decide_eq_true h)

/-- Keeping a part and keeping everything move alike. -/
theorem Move.step_keep {a a' : Awaiting} {t : Token} (h : a.Move t a') (top : Interest)
    {limit : Nat} (hlimit : a'.stack.length ≤ limit) :
      step (some limit) top (a.keep top) t = some (a'.keep top) := by
  -- What is not kept is counted all the same, so both machines see the same depth.
  cases h with
  | @atom stack orEnd t j a ht h =>
    cases t with
    | null =>
      cases ht
      exact atom_keep top (fun _ => rfl) h
    | bool b =>
      cases ht
      exact atom_keep top (fun _ => rfl) h
    | number n =>
      obtain ⟨hn, hj⟩ := Option.ite_none_left_eq_some.mp ht
      cases hj
      rw [keep, step, if_neg hn]
      exact atom_keep top (fun _ => rfl) h
    | string s =>
      obtain ⟨s, rfl, rfl⟩ := Option.map_eq_some_iff.mp ht
      exact atom_keep top (fun _ => rfl) h
    | _ => exact nomatch ht
  | openArray | openObject =>
    rw [keep, step, if_pos (roomLeft_keepStack top hlimit), keep, keepStack, Frame.keep]
    cases interest top (keepStack top _) <;> rfl
  | closeEmptyArray h | closeArray h => exact closeArray_keep top h
  | @closeEmptyObject rev key stack a h => exact closeObject_keep top key h
  | @closeObject rev key stack a h => exact closeObject_keep top key h
  | key => rfl
  | colon => rfl
  | nextItem => rfl
  | nextKey => rfl

/-- What the whole run of the machine that keeps everything ends with bounds its stack, and the
other machine follows it to the end. -/
theorem run_keep (top : Interest) {limit : Nat} {j : Json} (hj : j.depth ≤ limit)
    {tokens : List Token} {a : Awaiting} (hw : a.Whole)
    (h : tokens.foldlM (step none .whole) a = some (.done j)) :
    a.height ≤ j.depth ∧ tokens.foldlM (step (some limit) top) (a.keep top) =
      some (.done (top.keep j)) := by
  induction tokens generalizing a with
  | nil =>
    cases h
    exact ⟨Nat.le_refl _, rfl⟩
  | cons t tokens ih =>
    rw [List.foldlM_cons] at h
    obtain ⟨a', ha, h⟩ := Option.bind_eq_some_iff.mp h
    have hm := hw.move ha
    obtain ⟨hle, hrun⟩ := ih (hm.whole hw) h
    have hroom : a'.stack.length ≤ limit := Nat.le_trans a'.length_le_height (Nat.le_trans hle hj)
    refine ⟨Nat.le_trans hm.height_le hle, ?_⟩
    rw [List.foldlM_cons, hm.step_keep top hroom]
    exact hrun

end Awaiting

/-- Reading for an interest and within a limit gives the part of interest of the whole value, if
that is within the limit. -/
theorem read?_keep (top : Interest) {limit : Nat} {text : String} {j : Json}
    (h : read? none .whole text = some j) (hj : j.depth ≤ limit) :
      read? (some limit) top text = some (top.keep j) := by
  unfold read? at h ⊢
  obtain ⟨tokens, ht, h⟩ := Option.bind_eq_some_iff.mp h
  obtain ⟨a, ha, h⟩ := Option.bind_eq_some_iff.mp h
  cases a with
  | done j' =>
    cases h
    have hw : (Awaiting.value [] false).Whole := List.forall_mem_nil _
    have hrun : tokens.foldlM (Awaiting.step (some limit) top) (.value [] false) =
        some (.done (top.keep j)) :=
      (Awaiting.run_keep top hj hw ha).2
    rw [ht]
    show (tokens.foldlM (Awaiting.step (some limit) top) (.value [] false)).bind _ = _
    rw [hrun]
    rfl
  | _ => exact nomatch h

end MethodFlow.Json
