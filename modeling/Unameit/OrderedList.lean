import Mathlib

/-!
# OrderedList — ordered lists kept in a Tcl array

A list without duplicates is kept in one array: the element `count^` holds its size, the elements
`value n` its values by position and the elements `index v` the positions by value.  A deletion
shifts both kinds of elements.  Over any sequence of commands the array stands for a sequence
without duplicates, and each command does to the sequence what its name says.
-/

namespace Unameit
namespace OrderedList

abbrev Words := List String

/-- The elements of the array by their names.  A name made by `[list a b]` is the list of its
words. -/
abbrev Cells := Words → Option String

inductive Fault
  | noSuchElement (name : Words)
  | notInteger (word : String)
  | indexTooLarge
  deriving DecidableEq, Repr

/-- Commands on the array; what has been written stays if they fail. -/
abbrev Command := EStateM Fault Cells

def word (n : ℤ) : String :=
  n.repr

/-! ## Commands -/

def get (name : Words) : Command String := fun σ =>
  match σ name with
  | some w => .ok w σ
  | none => .error (.noSuchElement name) σ

def getInt (name : Words) : Command ℤ := do
  let w ← get name
  match w.toInt? with
  | some n => pure n
  | none => throw (.notInteger w)

def set (name : Words) (w : String) : Command Unit :=
  modify fun σ => Function.update σ name (some w)

def unset (name : Words) : Command Unit := do
  let _ ← get name
  modify fun σ => Function.update σ name none

def exists? (name : Words) : Command Bool :=
  return ((← EStateM.get) name).isSome

/-- Clears the elements of the positions `count`, `count + 1`, … of a list. -/
def initOrderedListLoop (count : ℤ) : ℕ → Command Unit
  | 0 => pure ()
  | n + 1 => do
    let value ← get ["value", word count]
    unset ["value", word count]
    unset ["index", value]
    initOrderedListLoop (count + 1) n

def initOrderedList : Command (Words) := do
  if ← exists? ["count^"] then
    let listSize ← getInt ["count^"]
    initOrderedListLoop 0 listSize.toNat
  set ["count^"] (word 0)
  return [word 0]

def addToOrderedListLoop : Words → ℤ → Words → Command (ℤ × Words)
  | [], count, valuesAdded => pure (count, valuesAdded)
  | value :: args, count, valuesAdded => do
    if ← exists? ["index", value] then
      addToOrderedListLoop args count valuesAdded
    else
      set ["index", value] (word count)
      set ["value", word count] value
      addToOrderedListLoop args (count + 1) (valuesAdded ++ [value])

def addToOrderedList (args : Words) : Command (Words) := do
  let count ← getInt ["count^"]
  let (count, valuesAdded) ← addToOrderedListLoop args count []
  set ["count^"] (word count)
  return valuesAdded

def setOrderedList (args : Words) : Command (Words) := do
  let _ ← initOrderedList
  -- `eval add_to_ordered_list list $args`: `$args` is a list, so its words are the arguments
  addToOrderedList args

def getValuesLoop (i : ℤ) : ℕ → Command (Words)
  | 0 => pure []
  | n + 1 => do
    let value ← get ["value", word i]
    let result ← getValuesLoop (i + 1) n
    return value :: result

def getValuesFromOrderedList : Command (Words) := do
  let count ← getInt ["count^"]
  getValuesLoop 0 count.toNat

def getNthFromOrderedList (n : ℤ) : Command String := do
  if (← getInt ["count^"]) ≤ n then throw .indexTooLarge
  get ["value", word n]

/-- Moves the values behind position `i` one position down; the result is the last position.  The
loop does not write `count^`, so that the number of its rounds is known in advance. -/
def shiftDown (i : ℤ) : ℕ → Command ℤ
  | 0 => pure i
  | n + 1 => do
    let nextValue ← get ["value", word (i + 1)]
    set ["value", word i] nextValue
    set ["index", nextValue] (word i)
    shiftDown (i + 1) n

def deleteValueFromOrderedList (value : String) : Command (Words) := do
  let index ← getInt ["index", value]
  let count ← getInt ["count^"]
  let i ← shiftDown index (count - 1 - index).toNat
  unset ["value", word i]
  unset ["index", value]
  set ["count^"] (word ((← getInt ["count^"]) - 1))
  return [word index]

def deleteNthFromOrderedList (n : ℤ) : Command (Words) := do
  let value ← getNthFromOrderedList n
  deleteValueFromOrderedList value

/-- The commands that write the array.  A position is given as an integer in its usual spelling. -/
inductive Op
  | init
  | set (args : Words)
  | add (args : Words)
  | deleteValue (value : String)
  | deleteNth (n : ℤ)

def Op.command : Op → Command (Words)
  | .init => initOrderedList
  | .set args => setOrderedList args
  | .add args => addToOrderedList args
  | .deleteValue value => deleteValueFromOrderedList value
  | .deleteNth n => deleteNthFromOrderedList n

/-! ## Sequences -/

/-- The values of `args` that are added to `xs`, each once. -/
def newValues (xs : Words) : Words → Words
  | [] => []
  | value :: args =>
    if value ∈ xs then newValues xs args else value :: newValues (xs ++ [value]) args

/-- What the commands do to the sequence; `none` is the array before `init_ordered_list`. -/
def Op.spec : Op → Option (Words) → Except Fault (Words) × Option (Words)
  | .init, _ => (.ok [word 0], some [])
  | .set args, _ => (.ok (newValues [] args), some (newValues [] args))
  | .add args, some xs => (.ok (newValues xs args), some (xs ++ newValues xs args))
  | .add _, none => (.error (.noSuchElement ["count^"]), none)
  | .deleteValue value, some xs =>
    if value ∈ xs then (.ok [word (xs.idxOf value)], some (xs.erase value))
    else (.error (.noSuchElement ["index", value]), some xs)
  | .deleteValue value, none => (.error (.noSuchElement ["index", value]), none)
  | .deleteNth n, some xs =>
    if xs.length ≤ n then (.error .indexTooLarge, some xs)
    else if n < 0 then (.error (.noSuchElement ["value", word n]), some xs)
    else (.ok [word n], some (xs.eraseIdx n.toNat))
  | .deleteNth _, none => (.error (.noSuchElement ["count^"]), none)

/-- The elements by position and by value are those of the pairs `P`: the two kinds of elements are
inverse to each other. -/
structure Maps (σ : Cells) (P : ℤ → String → Prop) : Prop where
  value (n : ℤ) (v : String) : σ ["value", word n] = some v ↔ P n v
  index (v w : String) : σ ["index", v] = some w ↔ ∃ n, w = word n ∧ P n v

def At (xs : Words) (n : ℤ) (v : String) : Prop :=
  ∃ k : ℕ, n = k ∧ xs[k]? = some v

/-- The array stands for the sequence `xs`. -/
structure Holds (σ : Cells) (xs : Words) : Prop extends Maps σ (At xs) where
  count : σ ["count^"] = some (word xs.length)

def Represents (σ : Cells) : Option (Words) → Prop
  | none => σ = fun _ => none
  | some xs => Holds σ xs

/-! ## Reading and writing -/

variable {α β : Type} {σ τ : Cells} {xs ys k : Words} {v w : String}

@[simp] lemma word_inj {m n : ℤ} : word m = word n ↔ m = n :=
  Int.repr_inj

lemma bind_ok {m : Command α} {a : α} (f : α → Command β) (h : m σ = .ok a τ) :
    (m >>= f) σ = f a τ := by
  show EStateM.bind m f σ = _
  rw [EStateM.bind, h]

lemma bind_error {m : Command α} {e : Fault} (f : α → Command β) (h : m σ = .error e τ) :
    (m >>= f) σ = .error e τ := by
  show EStateM.bind m f σ = _
  rw [EStateM.bind, h]

lemma get_ok (h : σ k = some w) : get k σ = .ok w σ := by
  rw [get, h]

lemma get_error (h : σ k = none) :
    get k σ = .error (.noSuchElement k) σ := by
  rw [get, h]

lemma getInt_ok {n : ℤ} (h : σ k = some (word n)) : getInt k σ = .ok n σ := by
  rw [getInt, bind_ok _ (get_ok h), word, Int.toInt?_repr]
  rfl

lemma getInt_error (h : σ k = none) :
    getInt k σ = .error (.noSuchElement k) σ :=
  bind_error _ (get_error h)

lemma unset_ok (h : σ k = some w) :
    unset k σ = .ok () (Function.update σ k none) :=
  bind_ok _ (get_ok h)

namespace Maps

variable {P Q : ℤ → String → Prop} {m n : ℤ} {u : String}

lemma congr (h : Maps σ P) (hPQ : ∀ n v, P n v ↔ Q n v) : Maps σ Q where
  value n v := (h.value n v).trans (hPQ n v)
  index v w := (h.index v w).trans (by simp only [hPQ])

lemma index_eq (h : Maps σ P) (hP : P n v) : σ ["index", v] = some (word n) :=
  (h.index v _).2 ⟨n, rfl, hP⟩

lemma index_eq_none (h : Maps σ P) (hP : ∀ n, ¬ P n v) : σ ["index", v] = none := by
  rw [Option.eq_none_iff_forall_ne_some]
  intro w hw
  obtain ⟨n, -, hn⟩ := (h.index v w).1 hw
  exact hP n hn

lemma position_eq (h : Maps σ P) (hm : P m v) (hn : P n v) : m = n :=
  word_inj.1 (Option.some.inj ((h.index_eq hm).symm.trans (h.index_eq hn)))

lemma value_unique (h : Maps σ P) (hu : P n u) (hv : P n v) : u = v :=
  Option.some.inj (((h.value n u).2 hu).symm.trans ((h.value n v).2 hv))

lemma update_count (h : Maps σ P) (w : Option String) :
    Maps (Function.update σ ["count^"] w) P where
  value n v := by simpa using h.value n v
  index v w := by simpa using h.index v w

/-- Filing a value at a free position. -/
theorem insert (h : Maps σ P) (hn : ∀ u, ¬ P n u) (hv : ∀ m, ¬ P m v) :
    Maps (Function.update (Function.update σ ["index", v] (some (word n))) ["value", word n]
      (some v)) fun m u => P m u ∨ m = n ∧ u = v := by
  refine ⟨fun m u => ?_, fun u w => ?_⟩
  · by_cases hm : m = n
    · subst hm
      simp [hn, eq_comm]
    · simpa [hm] using h.value m u
  · by_cases hu : u = v
    · subst hu
      simp [hv, eq_comm]
    · simpa [hu] using h.index u w

/-- Clearing the elements of one position. -/
theorem erase (h : Maps σ P) (hP : P n v) :
    Maps (Function.update (Function.update σ ["value", word n] none) ["index", v] none)
      fun m u => P m u ∧ m ≠ n := by
  refine ⟨fun m u => ?_, fun u w => ?_⟩
  · by_cases hm : m = n
    · subst hm
      simp
    · simpa [hm] using h.value m u
  · by_cases hu : u = v
    · subst hu
      simpa using fun m _ hm => h.position_eq hm hP
    · have hne : ∀ m, P m u → m ≠ n := fun m hm heq => hu (h.value_unique (heq ▸ hm) hP)
      simpa [hu] using (h.index u w).trans (by grind)

end Maps

/-! ## Adding -/

@[simp] lemma at_natCast {k : ℕ} : At xs k v ↔ xs[k]? = some v := by
  simp [At]

lemma at_concat (xs : Words) (v : String) (n : ℤ) (u : String) :
    At (xs ++ [v]) n u ↔ At xs n u ∨ n = xs.length ∧ u = v := by
  have hget : ∀ k : ℕ, (xs ++ [v])[k]? = some u ↔ xs[k]? = some u ∨ k = xs.length ∧ u = v := by
    grind
  simp only [At, hget]
  grind

lemma not_at_of_notMem (hv : v ∉ xs) (n : ℤ) : ¬ At xs n v := by
  rintro ⟨k, -, hk⟩
  exact hv (List.mem_of_getElem? hk)

lemma addToOrderedListLoop_maps (args : Words) : ∀ (xs added : Words) (σ : Cells),
    Maps σ (At xs) →
    ∃ τ, addToOrderedListLoop args xs.length added σ =
        .ok ((xs ++ newValues xs args).length, added ++ newValues xs args) τ ∧
      Maps τ (At (xs ++ newValues xs args)) := by
  induction args with
  | nil =>
    intro xs added σ h
    exact ⟨σ, by simp [newValues, addToOrderedListLoop]; rfl, by simpa [newValues] using h⟩
  | cons value args ih =>
    intro xs added σ h
    have hexists : exists? ["index", value] σ = .ok (σ ["index", value]).isSome σ := rfl
    rw [addToOrderedListLoop, newValues, bind_ok _ hexists]
    by_cases hv : value ∈ xs
    · obtain ⟨k, hk⟩ := List.mem_iff_getElem?.1 hv
      rw [h.index_eq (at_natCast.2 hk), if_pos hv]
      exact ih xs added σ h
    · have hnot := not_at_of_notMem hv
      have hfree : ∀ u, ¬ At xs xs.length u := by simp
      obtain ⟨τ, hrun, hτ⟩ := ih (xs ++ [value]) (added ++ [value]) _
        ((h.insert hfree hnot).congr fun n u => (at_concat xs value n u).symm)
      rw [h.index_eq_none hnot, if_neg hv]
      refine ⟨τ, ?_, by simpa using hτ⟩
      show addToOrderedListLoop args (xs.length + 1) (added ++ [value]) _ = _
      simpa using hrun

lemma addToOrderedList_holds (h : Holds σ xs) (args : Words) :
    ∃ τ, addToOrderedList args σ = .ok (newValues xs args) τ ∧
      Holds τ (xs ++ newValues xs args) := by
  obtain ⟨τ, hrun, hτ⟩ := addToOrderedListLoop_maps args xs [] σ h.toMaps
  refine ⟨_, ?_,
    { hτ.update_count (some (word (xs ++ newValues xs args).length)) with count := ?_ }⟩
  · rw [addToOrderedList, bind_ok _ (getInt_ok h.count), bind_ok _ hrun]
    rfl
  · simp

/-! ## Clearing and reading -/

lemma initOrderedListLoop_maps (xs : Words) : ∀ (n c : ℕ) (σ : Cells), c + n = xs.length →
    Maps σ (fun m u => At xs m u ∧ c ≤ m) →
    ∃ τ, initOrderedListLoop c n σ = .ok () τ ∧ Maps τ (At []) := by
  intro n
  induction n with
  | zero =>
    intro c σ hc h
    refine ⟨σ, rfl, h.congr fun m u => ?_⟩
    simp only [At, List.getElem?_nil, reduceCtorEq, and_false, exists_false, iff_false]
    rintro ⟨⟨k, rfl, hk⟩, hle⟩
    have := (List.getElem?_eq_some_iff.1 hk).1
    omega
  | succ n ih =>
    intro c σ hc h
    have hget : At xs c xs[c] := by simp
    have hvalue := (h.value c _).2 ⟨hget, le_rfl⟩
    obtain ⟨τ, hrun, hτ⟩ := ih (c + 1) _ (by omega) ((h.erase ⟨hget, le_rfl⟩).congr fun m u => by
      push_cast
      grind)
    refine ⟨τ, ?_, hτ⟩
    rw [initOrderedListLoop, bind_ok _ (get_ok hvalue), bind_ok _ (unset_ok hvalue),
      bind_ok _ (unset_ok (w := word c) ?_)]
    · exact_mod_cast hrun
    · simpa using h.index_eq ⟨hget, le_rfl⟩

lemma initOrderedList_holds {s : Option (Words)} (h : Represents σ s) :
    ∃ τ, initOrderedList σ = .ok [word 0] τ ∧ Holds τ [] := by
  cases s with
  | none =>
    subst h
    refine ⟨_, rfl, ⟨⟨fun n v => ?_, fun v w => ?_⟩, by simp⟩⟩
    · simp [At]
    · simp [At]
  | some xs =>
    obtain ⟨τ, hrun, hτ⟩ := initOrderedListLoop_maps xs xs.length 0 σ (by simp)
      (h.toMaps.congr fun m u => by simp [At]; grind)
    refine ⟨_, ?_, { hτ.update_count (some (word 0)) with count := by simp }⟩
    have hexists : exists? ["count^"] σ = .ok true σ := by
      show EStateM.Result.ok (σ ["count^"]).isSome σ = _
      rw [h.count]
      rfl
    rw [initOrderedList, bind_ok _ hexists, if_pos rfl]
    exact (bind_ok _ (getInt_ok h.count)).trans (bind_ok _ hrun)

lemma getValuesLoop_eq (h : Maps σ (At xs)) : ∀ n i : ℕ, i + n = xs.length →
    getValuesLoop i n σ = .ok (xs.drop i) σ := by
  intro n
  induction n with
  | zero =>
    intro i hi
    rw [List.drop_eq_nil_of_le (by omega)]
    rfl
  | succ n ih =>
    intro i hi
    have hrest := ih (i + 1) (by omega)
    have hvalue := (h.value i xs[i]).2 (by simp)
    rw [getValuesLoop, bind_ok _ (get_ok hvalue), bind_ok _ (by exact_mod_cast hrest),
      List.drop_eq_getElem_cons (show i < xs.length by omega)]
    rfl

lemma getValuesFromOrderedList_eq (h : Holds σ xs) :
    getValuesFromOrderedList σ = .ok xs σ := by
  rw [getValuesFromOrderedList, bind_ok _ (getInt_ok h.count)]
  exact getValuesLoop_eq h.toMaps xs.length 0 (by simp)

/-! ## Deleting -/

/-- The pairs of `ys` with the position `i` left free. -/
def Around (ys : Words) (i : ℕ) (n : ℤ) (u : String) : Prop :=
  ∃ k : ℕ, n = (if k < i then k else k + 1 : ℕ) ∧ ys[k]? = some u

lemma around_succ {i : ℕ} (hi : i < ys.length) (m : ℤ) (u : String) :
    Around ys i m u ∧ m ≠ (i + 1 : ℕ) ∨ m = i ∧ u = ys[i] ↔ Around ys (i + 1) m u := by
  constructor
  · rintro (⟨⟨k, rfl, hk⟩, hne⟩ | ⟨rfl, rfl⟩)
    · refine ⟨k, ?_, hk⟩
      split_ifs at hne ⊢ <;> omega
    · exact ⟨i, by simp, by simp⟩
  · rintro ⟨k, rfl, hk⟩
    by_cases hki : k = i
    · subst hki
      rw [List.getElem?_eq_getElem hi, Option.some_inj] at hk
      exact Or.inr ⟨by simp, hk.symm⟩
    · refine Or.inl ⟨⟨k, ?_, hk⟩, ?_⟩
      · split_ifs <;> omega
      · split_ifs <;> omega

lemma around_length (ys : Words) (m : ℤ) (u : String) :
    Around ys ys.length m u ↔ At ys m u := by
  refine exists_congr fun k => and_congr_left fun hk => ?_
  rw [if_pos (List.getElem?_eq_some_iff.1 hk).1]

/-- The array without the elements of the position `i` and the value `v`. -/
def clear (σ : Cells) (i : ℤ) (v : String) : Cells :=
  Function.update (Function.update σ ["value", word i] none) ["index", v] none

/-- The deletion of `v` has come to the position `i`: only what the array holds there and for `v` is
out of date. -/
structure Gap (σ : Cells) (ys : Words) (i : ℕ) (v : String) : Prop where
  maps : Maps (clear σ i v) (Around ys i)
  value : ∃ w, σ ["value", word i] = some w
  index : ∃ w, σ ["index", v] = some w

lemma Gap.notMem {i : ℕ} (h : Gap σ ys i v) : v ∉ ys := by
  intro hv
  obtain ⟨k, hk⟩ := List.mem_iff_getElem?.1 hv
  have hindex := h.maps.index_eq ⟨k, rfl, hk⟩
  simp [clear] at hindex

lemma Gap.step {i : ℕ} (h : Gap σ ys i v) (hi : i < ys.length) :
    ∃ x, σ ["value", word (i + 1)] = some x ∧
      Gap (Function.update (Function.update σ ["value", word i] (some x)) ["index", x]
        (some (word i))) ys (i + 1) v := by
  have hx : Around ys i (i + 1 : ℕ) ys[i] := ⟨i, by simp, by simp⟩
  have hne : ys[i] ≠ v := fun heq => h.notMem (heq ▸ List.getElem_mem hi)
  have hvalue : σ ["value", word (i + 1)] = some ys[i] := by
    simpa [clear] using (h.maps.value _ _).2 hx
  refine ⟨ys[i], hvalue, ?_, ⟨ys[i], by simpa using hvalue⟩, ?_⟩
  · have hfree : ∀ u, ¬ (Around ys i i u ∧ (i : ℤ) ≠ (i + 1 : ℕ)) := by
      rintro u ⟨⟨k, hk, -⟩, -⟩
      split_ifs at hk <;> omega
    have hgone : ∀ m, ¬ (Around ys i m ys[i] ∧ m ≠ (i + 1 : ℕ)) := by
      rintro m ⟨hm, hmi⟩
      exact hmi (h.maps.position_eq hm hx)
    -- the value at `i + 1` is taken away and filed at `i`
    have hmove := (h.maps.erase hx).insert hfree hgone
    have hcells : clear (Function.update (Function.update σ ["value", word i] (some ys[i]))
        ["index", ys[i]] (some (word i))) (i + 1 : ℕ) v =
        Function.update (Function.update (clear (clear σ i v) (i + 1 : ℕ) ys[i])
          ["index", ys[i]] (some (word i))) ["value", word i] (some ys[i]) := by
      funext name
      simp only [clear, Function.update_apply]
      split_ifs <;> simp_all
    rw [hcells]
    exact hmove.congr fun m u => around_succ hi m u
  · obtain ⟨w, hw⟩ := h.index
    exact ⟨w, by simpa [hne.symm] using hw⟩

lemma shiftDown_gap : ∀ (n i : ℕ) (σ : Cells),
    i + n = ys.length → Gap σ ys i v →
    ∃ τ, shiftDown i n σ = .ok ys.length τ ∧ Gap τ ys ys.length v ∧
      τ ["count^"] = σ ["count^"] := by
  intro n
  induction n with
  | zero =>
    intro i σ hi h
    obtain rfl : i = ys.length := by omega
    exact ⟨σ, rfl, h, rfl⟩
  | succ n ih =>
    intro i σ hi h
    obtain ⟨x, hx, hgap⟩ := h.step (by omega)
    obtain ⟨τ, hrun, hτ, hcount⟩ := ih (i + 1) _ (by omega) hgap
    refine ⟨τ, ?_, hτ, by simpa using hcount⟩
    rw [shiftDown, bind_ok _ (get_ok hx)]
    exact_mod_cast hrun

/-- Before the shift only the deleted value itself is out of place. -/
theorem Holds.gap (h : Holds σ xs) {i : ℕ} (hi : xs[i]? = some v) :
    Gap σ (xs.eraseIdx i) i v := by
  have hv := at_natCast.2 hi
  refine ⟨(h.erase hv).congr fun m u => ?_, ⟨v, (h.value i v).2 hv⟩, ⟨_, h.index_eq hv⟩⟩
  simp only [At, Around, List.getElem?_eraseIdx]
  constructor
  · rintro ⟨⟨k, rfl, hk⟩, hne⟩
    by_cases hlt : k < i
    · exact ⟨k, by simp [hlt], by simp [hlt, hk]⟩
    · have hk' : k - 1 + 1 = k := by omega
      have hge : ¬ k - 1 < i := by omega
      exact ⟨k - 1, by rw [if_neg hge, hk'], by rw [if_neg hge, hk', hk]⟩
  · rintro ⟨k, rfl, hk⟩
    split_ifs at hk ⊢
    · exact ⟨⟨k, rfl, hk⟩, by omega⟩
    · exact ⟨⟨k + 1, rfl, hk⟩, by omega⟩

lemma deleteValueFromOrderedList_holds (h : Holds σ xs) {i : ℕ} (hi : xs[i]? = some v) :
    ∃ τ, deleteValueFromOrderedList v σ = .ok [word i] τ ∧ Holds τ (xs.eraseIdx i) := by
  have hlt := (List.getElem?_eq_some_iff.1 hi).1
  have hlen : (xs.eraseIdx i).length = xs.length - 1 := by
    rw [List.length_eraseIdx, if_pos hlt]
  obtain ⟨τ, hrun, hτ, hcount⟩ := shiftDown_gap (xs.length - 1 - i) i σ (by omega) (h.gap hi)
  obtain ⟨w, hw⟩ := hτ.value
  obtain ⟨w', hw'⟩ := hτ.index
  rw [h.count] at hcount
  have hmaps := hτ.maps.congr fun m u => around_length (xs.eraseIdx i) m u
  refine ⟨_, ?_, { hmaps.update_count (some (word (xs.length - 1))) with count := ?_ }⟩
  · have hrounds : ((xs.length : ℤ) - 1 - i).toNat = xs.length - 1 - i := by omega
    rw [deleteValueFromOrderedList, bind_ok _ (getInt_ok (h.index_eq (at_natCast.2 hi))),
      bind_ok _ (getInt_ok h.count), hrounds, bind_ok _ hrun, bind_ok _ (unset_ok hw),
      bind_ok _ (unset_ok (w := w') (by simpa using hw')),
      bind_ok _ (getInt_ok (n := xs.length) (by simpa using hcount))]
    rfl
  · have hcast : ((xs.eraseIdx i).length : ℤ) = xs.length - 1 := by omega
    simp [hcast]

/-! ## Runs -/

/-- One command: its result or fault, and the array it leaves. -/
def step (op : Op) (σ : Cells) : Except Fault (Words) × Cells :=
  match op.command σ with
  | .ok result τ => (.ok result, τ)
  | .error fault τ => (.error fault, τ)

def run {α β σ : Type} (step : α → σ → β × σ) : List α → σ → List β × σ
  | [], s => ([], s)
  | a :: as, s =>
    let (b, s') := step a s
    let (bs, s'') := run step as s'
    (b :: bs, s'')

lemma step_ok (op : Op) {result : Words} (h : op.command σ = .ok result τ) :
    step op σ = (.ok result, τ) := by
  rw [step, h]

lemma step_error (op : Op) {fault : Fault} (h : op.command σ = .error fault τ) :
    step op σ = (.error fault, τ) := by
  rw [step, h]

lemma step_represents (op : Op) {s : Option (Words)} (h : Represents σ s) :
    (step op σ).1 = (op.spec s).1 ∧ Represents (step op σ).2 (op.spec s).2 := by
  cases op with
  | init =>
    obtain ⟨τ, hrun, hτ⟩ := initOrderedList_holds h
    rw [step_ok .init hrun]
    exact ⟨rfl, hτ⟩
  | set args =>
    obtain ⟨τ, hinit, hτ⟩ := initOrderedList_holds h
    obtain ⟨υ, hadd, hυ⟩ := addToOrderedList_holds hτ args
    rw [step_ok (.set args) ((bind_ok _ hinit).trans hadd)]
    exact ⟨rfl, hυ⟩
  | add args =>
    cases s with
    | none =>
      subst h
      exact ⟨rfl, rfl⟩
    | some xs =>
      obtain ⟨τ, hrun, hτ⟩ := addToOrderedList_holds h args
      rw [step_ok (.add args) hrun]
      exact ⟨rfl, hτ⟩
  | deleteValue value =>
    cases s with
    | none =>
      subst h
      exact ⟨rfl, rfl⟩
    | some xs =>
      simp only [Op.spec]
      split_ifs with hv
      · obtain ⟨τ, hrun, hτ⟩ := deleteValueFromOrderedList_holds h (List.getElem?_idxOf hv)
        rw [step_ok (.deleteValue value) hrun]
        exact ⟨rfl, by rwa [List.erase_eq_eraseIdx_of_idxOf rfl]⟩
      · have hrun := h.index_eq_none (not_at_of_notMem hv)
        rw [step_error (.deleteValue value) (bind_error _ (getInt_error hrun))]
        exact ⟨rfl, h⟩
  | deleteNth n =>
    cases s with
    | none =>
      subst h
      exact ⟨rfl, rfl⟩
    | some xs =>
      have hsize := getInt_ok h.count
      simp only [Op.spec]
      split_ifs with hlarge hneg
      · have hrun : deleteNthFromOrderedList n σ = .error .indexTooLarge σ := by
          refine bind_error _ ((bind_ok _ hsize).trans ?_)
          rw [if_pos hlarge]
          rfl
        rw [step_error (.deleteNth n) hrun]
        exact ⟨rfl, h⟩
      · have hnone : σ ["value", word n] = none := by
          rw [Option.eq_none_iff_forall_ne_some]
          intro v hv
          obtain ⟨k, rfl, -⟩ := (h.value n v).1 hv
          omega
        have hrun : deleteNthFromOrderedList n σ = .error (.noSuchElement ["value", word n]) σ := by
          refine bind_error _ ((bind_ok _ hsize).trans ?_)
          rw [if_neg hlarge]
          exact get_error hnone
        rw [step_error (.deleteNth n) hrun]
        exact ⟨rfl, h⟩
      · obtain ⟨k, rfl⟩ := Int.eq_ofNat_of_zero_le (not_lt.1 hneg)
        have hk := List.getElem?_eq_getElem (show k < xs.length by omega)
        obtain ⟨τ, hrun, hτ⟩ := deleteValueFromOrderedList_holds h hk
        have hnth : getNthFromOrderedList k σ = .ok xs[k] σ := by
          refine (bind_ok _ hsize).trans ?_
          rw [if_neg hlarge]
          exact get_ok ((h.value k _).2 (at_natCast.2 hk))
        rw [step_ok (.deleteNth k) ((bind_ok _ hnth).trans hrun)]
        exact ⟨rfl, hτ⟩

lemma run_represents (ops : List Op) : ∀ (σ : Cells) (s : Option (Words)), Represents σ s →
    (run step ops σ).1 = (run Op.spec ops s).1 ∧
      Represents (run step ops σ).2 (run Op.spec ops s).2 := by
  induction ops with
  | nil => exact fun σ s h => ⟨rfl, h⟩
  | cons op ops ih =>
    intro σ s h
    obtain ⟨hresult, hstep⟩ := step_represents op h
    obtain ⟨hresults, hrun⟩ := ih _ _ hstep
    exact ⟨congrArg₂ List.cons hresult hresults, hrun⟩

lemma Holds.nodup (h : Holds σ xs) : xs.Nodup := by
  rw [List.nodup_iff_getElem?_ne_getElem?]
  intro i j hij hj heq
  have hget := List.getElem?_eq_getElem hj
  have hpos := h.position_eq (at_natCast.2 (heq.trans hget)) (at_natCast.2 hget)
  omega

/-- Over any sequence of commands the array refines a sequence without duplicates: the results and
faults are those of the sequence, the elements by position and by value are inverse to each other
and `get_values_from_ordered_list` returns the sequence. -/
theorem run_refines_sequence (ops : List Op) :
    let σ := (run step ops fun _ => none).2
    (run step ops fun _ => none).1 = (run Op.spec ops none).1 ∧
      match (run Op.spec ops none).2 with
      | none => σ = fun _ => none
      | some xs => xs.Nodup ∧ Holds σ xs ∧ getValuesFromOrderedList σ = .ok xs σ := by
  obtain ⟨hresults, hrun⟩ := run_represents ops (fun _ => none) none rfl
  refine ⟨hresults, ?_⟩
  cases hs : (run Op.spec ops none).2 with
  | none =>
    rw [hs] at hrun
    exact hrun
  | some xs =>
    rw [hs] at hrun
    exact ⟨hrun.nodup, hrun, getValuesFromOrderedList_eq hrun⟩

end OrderedList
end Unameit
