import Unameit.Refint.Loops

/-!
# Refint.Report — the loop that the loop checks report

`Collection_Loop_Leaf` and `Scalar_Loop_Leaf` keep the items of the current path in a table.  When
an item on the path is met again, the search unwinds, and the items that it leaves are recorded as
long as the item that was met is still on the path.  What has been recorded, together with the part
of the path that is yet to be left, is the loop (`Recorded`); in the end it is the loop alone.
-/

namespace Unameit
namespace Refint

open List

variable {path rest uuids verified : List DbObject} {object next leaf : DbObject} {fuel : ℕ}

open Relation

/-! ## Scalar attributes -/

def scalarLoopLeaf (value : DbObject → Option DbObject) :
    ℕ → List DbObject → List DbObject → DbObject → Leaf
  | 0, _, _, _ => .endless
  | fuel + 1, verified, path, object =>
    if object ∈ verified then .verified verified
    else
      match value object with
      | none => .verified (object :: verified)
      | some next =>
        if next ∈ path then .loop next [next]
        else
          match scalarLoopLeaf value fuel verified (next :: path) next with
          | .loop leaf uuids => .loop leaf (if leaf ∈ path then uuids ++ [next] else uuids)
          | .verified table => .verified (object :: table)
          | .endless => .endless

/-- The search over a scalar attribute is the one over collections of at most one item. -/
theorem scalarLoopLeaf_eq (value : DbObject → Option DbObject) (fuel : ℕ)
    (verified path : List DbObject) (object : DbObject) :
    scalarLoopLeaf value fuel verified path object =
      loopLeaf (fun o => (value o).toList) fuel verified path object := by
  induction fuel generalizing verified path object with
  | zero => rfl
  | succ fuel ih =>
    unfold scalarLoopLeaf loopLeaf
    by_cases hmem : object ∈ verified
    · rw [if_pos hmem, if_pos hmem]
    · cases value object with
      | none => rfl
      | some next =>
        simp only [Option.toList_some, loopElements]
        by_cases hnext : next ∈ path
        · simp only [if_pos hnext]
        · simp only [if_neg hnext, ih]
          cases loopLeaf (fun o => (value o).toList) fuel verified (next :: path) next with
          | loop leaf uuids => rfl
          | verified table => rfl
          | endless => rfl

/-! ## What has been recorded -/

section Record

variable {targets : DbObject → List DbObject} {start : DbObject}

structure Path (targets : DbObject → List DbObject) (start : DbObject) (path : List DbObject) :
    Prop where
  nodup : path.Nodup
  linked : path.IsChain fun x y => x ∈ targets y
  reached : ∀ x ∈ path, ReflTransGen (fun x y => y ∈ targets x) start x

/-- The recorded items and those of the path up to the item that was met form a loop; if that item
is no longer on the path, the recorded items alone do. -/
structure Recorded (targets : DbObject → List DbObject) (start : DbObject) (path : List DbObject)
    (leaf : DbObject) (uuids : List DbObject) : Prop where
  first : uuids.head? = some leaf
  reached : ReflTransGen (fun x y => y ∈ targets x) start leaf
  onPath : ∀ pre post, path = pre ++ leaf :: post →
    LoopList (fun x y => y ∈ targets x) (uuids ++ pre)
  left : leaf ∉ path → LoopList (fun x y => y ∈ targets x) uuids

lemma Path.cons (h : Path targets start path) (hpath : path = object :: rest)
    (hnext : next ∈ targets object) (hnew : next ∉ path) : Path targets start (next :: path) := by
  subst hpath
  refine ⟨nodup_cons.2 ⟨hnew, h.nodup⟩, isChain_cons_cons.2 ⟨hnext, h.linked⟩, ?_⟩
  intro x hx
  rcases mem_cons.1 hx with rfl | hx
  · exact .tail (h.reached object mem_cons_self) hnext
  · exact h.reached x hx

/-- An item on the path is met again. -/
theorem Path.recorded (h : Path targets start path) (hpath : path = object :: rest)
    (hnext : next ∈ targets object) (hmem : next ∈ path) :
    Recorded targets start path next [next] := by
  refine ⟨rfl, h.reached next hmem, fun pre post heq => ?_, fun hout => absurd hmem hout⟩
  have hnodup := h.nodup
  have hlinked := h.linked
  rw [heq] at hnodup hlinked
  rcases nodup_append.1 hnodup with ⟨hpre, _, hdisjoint⟩
  have hout : next ∉ pre := fun hin => hdisjoint next hin next mem_cons_self rfl
  refine ⟨nodup_cons.2 ⟨hout, hpre⟩, ?_, ?_⟩
  · cases pre with
    | nil => exact isChain_singleton _
    | cons x pre =>
      -- the path begins with the current item
      obtain rfl : object = x := (cons.inj (hpath.symm.trans heq)).1
      exact isChain_cons_cons.2 ⟨hnext, hlinked.left_of_append⟩
  · rcases eq_nil_or_concat pre with rfl | ⟨init, last, rfl⟩
    · obtain rfl : object = next := (cons.inj (hpath.symm.trans heq)).1
      exact ⟨object, object, rfl, rfl, hnext⟩
    · refine ⟨next, last, rfl, by simp [getLast?_cons], ?_⟩
      have hpair : (init ++ ([last, next] ++ post)).IsChain fun x y => x ∈ targets y := by
        simpa using hlinked
      exact (isChain_cons_cons.1 hpair.right_of_append).1

lemma Recorded.leave (h : Recorded targets start (next :: path) leaf uuids) (hnew : next ∉ path) :
    Recorded targets start path leaf (if leaf ∈ path then uuids ++ [next] else uuids) := by
  by_cases hmem : leaf ∈ path
  · rw [if_pos hmem]
    refine ⟨?_, h.reached, fun pre post heq => ?_, fun hout => absurd hmem hout⟩
    · rw [head?_append, h.first]
      rfl
    · have hloop := h.onPath (next :: pre) post (by rw [heq]; rfl)
      simpa using hloop
  · rw [if_neg hmem]
    refine ⟨h.first, h.reached, fun _ _ heq => ?_, fun _ => ?_⟩
    · rw [heq] at hmem
      simp at hmem
    · by_cases hsame : leaf = next
      · subst hsame
        simpa using h.onPath [] path rfl
      · exact h.left fun hin => by
          rcases mem_cons.1 hin with heq | hin
          · exact hsame heq
          · exact hmem hin

lemma loopElements_loop {search : List DbObject → List DbObject → DbObject → Leaf}
    {list : List DbObject}
    (hsearch : ∀ {verified next leaf uuids}, Path targets start (next :: path) →
      search verified (next :: path) next = .loop leaf uuids →
        Recorded targets start (next :: path) leaf uuids) (hpath : Path targets start path)
    (hobject : path = object :: rest) (hlist : list ⊆ targets object)
    (h : loopElements search path verified list = .loop leaf uuids) :
    Recorded targets start path leaf uuids := by
  induction list generalizing verified with
  | nil => simp [loopElements] at h
  | cons next list ih =>
    rcases cons_subset.1 hlist with ⟨hnext, hrest⟩
    unfold loopElements at h
    by_cases hmem : next ∈ path
    · rw [if_pos hmem] at h
      obtain ⟨rfl, rfl⟩ := Leaf.loop.inj h
      exact hpath.recorded hobject hnext hmem
    · rw [if_neg hmem] at h
      cases hres : search verified (next :: path) next with
      | endless => simp [hres] at h
      | verified table =>
        simp only [hres] at h
        exact ih hrest h
      | loop leaf' uuids' =>
        simp only [hres] at h
        obtain ⟨rfl, rfl⟩ := Leaf.loop.inj h
        exact (hsearch (hpath.cons hobject hnext hmem) hres).leave hmem

lemma loopLeaf_loop (hpath : Path targets start path) (hobject : path = object :: rest)
    (h : loopLeaf targets fuel verified path object = .loop leaf uuids) :
    Recorded targets start path leaf uuids := by
  induction fuel generalizing path rest verified uuids object leaf with
  | zero => simp [loopLeaf] at h
  | succ fuel ih =>
    unfold loopLeaf at h
    by_cases hmem : object ∈ verified
    · simp [hmem] at h
    · rw [if_neg hmem] at h
      cases hres : loopElements (loopLeaf targets fuel) path verified (targets object) with
      | endless => simp [hres] at h
      | verified table => simp [hres] at h
      | loop leaf' uuids' =>
        simp only [hres] at h
        obtain ⟨rfl, rfl⟩ := Leaf.loop.inj h
        exact loopElements_loop (fun hnext heq => ih hnext rfl heq) hpath hobject
          (List.Subset.refl _) hres

/-- A search from a start reports a loop that can be reached from it. -/
theorem loopLeaf_start (h : loopLeaf targets fuel verified [start] start = .loop leaf uuids) :
    uuids.head? = some leaf ∧ ReflTransGen (fun x y => y ∈ targets x) start leaf ∧
      LoopList (fun x y => y ∈ targets x) uuids := by
  have hpath : Path targets start [start] :=
    ⟨nodup_singleton _, isChain_singleton _, fun x hx => by
      rw [mem_singleton.1 hx]⟩
  have hrec := loopLeaf_loop hpath rfl h
  refine ⟨hrec.first, hrec.reached, ?_⟩
  by_cases hleaf : leaf ∈ [start]
  · obtain rfl := mem_singleton.1 hleaf
    simpa using hrec.onPath [] [] rfl
  · exact hrec.left hleaf

end Record

/-! ## The checks -/

section Checks

variable {σ : State} {a : CString}

def Items.points (I : Items) (a : CString) (x y : DbObject) : Prop :=
  y ∈ I.value x a

/-- A loop of the attribute can be reached from the item. -/
def Items.Looping (I : Items) (a : CString) (o : DbObject) : Prop :=
  ∃ x, ReflTransGen (I.points a) o x ∧ TransGen (I.points a) x x

lemma loopChecksOf_loop {starts : List DbObject}
    (h : loopChecksOf σ a verified starts = .loop leaf uuids) :
    ∃ o ∈ starts, uuids.head? = some leaf ∧ ReflTransGen (σ.items.points a) o leaf ∧
      LoopList (σ.items.points a) uuids := by
  induction starts generalizing verified with
  | nil => simp [loopChecksOf] at h
  | cons o rest ih =>
    unfold loopChecksOf at h
    cases hres : loopLeaf (fun o => σ.items.value o a) (σ.items.objects.length + 1) verified [o] o
      with
    | endless => simp [hres] at h
    | verified table =>
      simp only [hres] at h
      rcases ih h with ⟨o', ho', hloop⟩
      exact ⟨o', mem_cons_of_mem _ ho', hloop⟩
    | loop leaf' uuids' =>
      simp only [hres] at h
      obtain ⟨rfl, rfl⟩ := Leaf.loop.inj h
      exact ⟨o, mem_cons_self, loopLeaf_start hres⟩

lemma loopChecks_eloop {anames : List CString} (h : loopChecks σ anames = .error (.eloop a uuids)) :
    ∃ o, (a, o) ∈ σ.loopTable ∧ ∃ leaf, uuids.head? = some leaf ∧
      ReflTransGen (σ.items.points a) o leaf ∧ LoopList (σ.items.points a) uuids := by
  induction anames with
  | nil => simp [loopChecks] at h
  | cons b rest ih =>
    unfold loopChecks at h
    cases hres : loopChecksOf σ b [] (σ.loopStarts b) with
    | endless => simp [hres] at h
    | verified table =>
      simp only [hres] at h
      exact ih h
    | loop leaf uuids' =>
      simp only [hres, Except.error.injEq, LoopError.eloop.injEq] at h
      obtain ⟨rfl, rfl⟩ := h
      rcases loopChecksOf_loop hres with ⟨o, ho, hloop⟩
      exact ⟨o, mem_loopStarts.1 ho, leaf, hloop⟩

lemma Ends.of_reflTransGen {targets : DbObject → List DbObject} {x y : DbObject}
    (h : Ends targets x) (hxy : ReflTransGen (fun x y => y ∈ targets x) x y) : Ends targets y := by
  induction hxy with
  | refl => exact h
  | tail _ hedge ih => exact ih.inv hedge

/-- The loop checks come to an end.  They fail exactly if a loop of an attribute can be reached from
an item that is scheduled for it, and report the items of one such loop, each of them once and
before the item that points at it. -/
theorem udbDoLoopChecks_exact (σ : State)
    (hclosed : ∀ {a x y}, y ∈ σ.items.value x a → y ∈ σ.items.objects)
    (hscheduled : ∀ e ∈ σ.loopTable, e.2 ∈ σ.items.objects) :
    udbDoLoopChecks σ ≠ .error .endless ∧
    ((∃ err, udbDoLoopChecks σ = .error err) ↔
      ∃ a o, (a, o) ∈ σ.loopTable ∧ σ.items.Looping a o) ∧
    ∀ a uuids, udbDoLoopChecks σ = .error (.eloop a uuids) →
      ∃ o, (a, o) ∈ σ.loopTable ∧ LoopList (σ.items.points a) uuids ∧
        ∀ x ∈ uuids, ReflTransGen (σ.items.points a) o x := by
  have hends := udbDoLoopChecks_ne_endless hclosed hscheduled
  refine ⟨hends, ⟨?_, ?_⟩, ?_⟩
  · rintro ⟨err, herr⟩
    cases err with
    | endless => exact absurd herr hends
    | eloop a uuids =>
      rcases loopChecks_eloop herr with ⟨o, ho, leaf, hleaf, hreach, hloop⟩
      cases uuids with
      | nil => cases hleaf
      | cons x rest =>
        obtain rfl : x = leaf := Option.some.inj hleaf
        exact ⟨a, o, ho, x, hreach, hloop.transGen⟩
  · rintro ⟨a, o, ho, x, hreach, hx⟩
    cases hres : udbDoLoopChecks σ with
    | error err => exact ⟨err, rfl⟩
    | ok u =>
      -- every path from the item comes to an end
      have hx' : Ends (fun o => σ.items.value o a) x :=
        (ends_of_udbDoLoopChecks hres ho).of_reflTransGen hreach
      exact absurd hx (not_transGen_of_acc hx')
  · intro a uuids herr
    rcases loopChecks_eloop herr with ⟨o, ho, leaf, hleaf, hreach, hloop⟩
    refine ⟨o, ho, hloop, fun x hx => hreach.trans ?_⟩
    cases uuids with
    | nil => cases hleaf
    | cons y rest =>
      obtain rfl : y = leaf := Option.some.inj hleaf
      exact hloop.reached hx

/-- Item 1 points at item 2, and items 2 and 3 at each other: the loop is reported without item 1. -/
theorem udbDoLoopChecks_exact_three : ∃ σ : State,
    (∀ x, σ.items.value x ['p'] = if x = 1 ∨ x = 3 then [2] else if x = 2 then [3] else []) ∧
    σ.loopTable = [(['p'], 1)] ∧
    udbDoLoopChecks σ = .error (.eloop ['p'] [2, 3]) ∧ LoopList (σ.items.points ['p']) [2, 3] ∧
    σ.items.Looping ['p'] 1 := by
  let σ : State :=
    { State.empty with
      items :=
        { objects := [1, 2, 3]
          cls := fun _ => []
          deleted := fun _ => false
          value := fun x a =>
            if a = ['p'] then if x = 1 ∨ x = 3 then [2] else if x = 2 then [3] else [] else [] }
      loopTable := [(['p'], 1)] }
  have hclosed : ∀ {a x y}, y ∈ σ.items.value x a → y ∈ σ.items.objects := by
    intro a x y hy
    have hval : y ∈ (if a = ['p'] then if x = 1 ∨ x = 3 then [2] else if x = 2 then [3] else []
      else []) := hy
    split_ifs at hval
    all_goals simp_all [σ]
  have hscheduled : ∀ e ∈ σ.loopTable, e.2 ∈ σ.items.objects := by
    intro e he
    rw [mem_singleton.1 he]
    exact mem_cons_self
  have herr : udbDoLoopChecks σ = .error (.eloop ['p'] [2, 3]) := by decide +kernel
  rcases udbDoLoopChecks_exact σ hclosed hscheduled with ⟨_, hiff, hreport⟩
  rcases hreport _ _ herr with ⟨_, _, hloop, _⟩
  rcases hiff.1 ⟨_, herr⟩ with ⟨a, o, hmem, hlooping⟩
  obtain ⟨rfl, rfl⟩ := Prod.mk.inj (mem_singleton.1 hmem)
  exact ⟨σ, fun x => rfl, rfl, herr, hloop, hlooping⟩

end Checks

end Refint
end Unameit
