import Unameit.Lib.Acyclic
import Unameit.Refint.References

/-!
# Refint — the loop checks at commit

Only updates schedule loop checks.  A created or undeleted item needs none, since nothing points at
it that could close a loop: what pointed at the item when it was deleted was cascaded or nullified,
or it makes the reference checks fail.

`acyclic_of_run` carries this through a transaction.  Its invariant is that the pointers which no
check would find, neither a scheduled loop check nor the reference checks, form no loop.
-/

namespace Unameit
namespace Refint

open Relation
open List

def Items.refers (I : Items) (a : CString) (x y : DbObject) : Prop :=
  I.Alive x ∧ I.Alive y ∧ y ∈ I.value x a

/-! ## The search -/

section Search

variable {targets : DbObject → List DbObject}

/-- Every path that starts here comes to an end. -/
def Ends (targets : DbObject → List DbObject) (o : DbObject) : Prop :=
  Acc (fun y x => y ∈ targets x) o

lemma loopElements_verified {search : List DbObject → List DbObject → DbObject → Leaf}
    (hsearch : ∀ {verified path o table}, search verified path o = .verified table →
      (∀ x ∈ verified, Ends targets x) → Ends targets o ∧ ∀ x ∈ table, Ends targets x)
    {path verified list table : List DbObject}
    (h : loopElements search path verified list = .verified table)
    (hverified : ∀ x ∈ verified, Ends targets x) :
    (∀ x ∈ list, Ends targets x) ∧ ∀ x ∈ table, Ends targets x := by
  induction list generalizing verified with
  | nil =>
    obtain rfl : verified = table := by simpa [loopElements] using h
    exact ⟨by simp, hverified⟩
  | cons next rest ih =>
    unfold loopElements at h
    split_ifs at h
    cases hres : search verified (next :: path) next with
    | loop leaf uuids => simp [hres] at h
    | endless => simp [hres] at h
    | verified table' =>
      simp only [hres] at h
      obtain ⟨hnext, htable'⟩ := hsearch hres hverified
      obtain ⟨hrest, htable⟩ := ih h htable'
      exact ⟨forall_mem_cons.2 ⟨hnext, hrest⟩, htable⟩

/-- A search without a loop has seen every path come to an end. -/
theorem loopLeaf_verified {fuel : ℕ} {verified path table : List DbObject} {o : DbObject}
    (h : loopLeaf targets fuel verified path o = .verified table)
    (hverified : ∀ x ∈ verified, Ends targets x) :
    Ends targets o ∧ ∀ x ∈ table, Ends targets x := by
  induction fuel generalizing verified path table o with
  | zero => simp [loopLeaf] at h
  | succ fuel ih =>
    unfold loopLeaf at h
    by_cases hmem : o ∈ verified
    · rw [if_pos hmem] at h
      obtain rfl : verified = table := by simpa using h
      exact ⟨hverified o hmem, hverified⟩
    · rw [if_neg hmem] at h
      cases hres : loopElements (loopLeaf targets fuel) path verified (targets o) with
      | loop leaf uuids => simp [hres] at h
      | endless => simp [hres] at h
      | verified table' =>
        simp only [hres, Leaf.verified.injEq] at h
        obtain ⟨hnext, htable'⟩ := loopElements_verified ih hres hverified
        have ho : Ends targets o := Acc.intro o fun y hy => hnext y hy
        rw [← h]
        exact ⟨ho, forall_mem_cons.2 ⟨ho, htable'⟩⟩

lemma loopElements_ne_endless {search : List DbObject → List DbObject → DbObject → Leaf}
    {path verified list : List DbObject} (hsearch : ∀ {verified next}, next ∈ list → next ∉ path →
      search verified (next :: path) next ≠ .endless) :
    loopElements search path verified list ≠ .endless := by
  induction list generalizing verified with
  | nil => simp [loopElements]
  | cons next rest ih =>
    unfold loopElements
    split_ifs with hnext
    · simp
    · cases hres : search verified (next :: path) next with
      | loop leaf uuids => simp
      | endless => exact absurd hres (hsearch mem_cons_self hnext)
      | verified table => exact ih fun hmem => hsearch (mem_cons_of_mem _ hmem)

/-- The items on a path are all different, so that a search needs no more fuel than there are
items. -/
theorem loopLeaf_ne_endless {objects : List DbObject}
    (hclosed : ∀ {x y}, y ∈ targets x → y ∈ objects) {fuel : ℕ} {verified path : List DbObject}
    {o : DbObject} (hnodup : path.Nodup) (hpath : path ⊆ objects)
    (hfuel : objects.length < fuel + path.length) :
    loopLeaf targets fuel verified path o ≠ .endless := by
  induction fuel generalizing verified path o with
  | zero =>
    have hle : path.length ≤ objects.length := (subperm_of_subset hnodup hpath).length_le
    omega
  | succ fuel ih =>
    have helements : loopElements (loopLeaf targets fuel) path verified (targets o) ≠ .endless := by
      refine loopElements_ne_endless ?_
      intro verified next hmem hnext
      refine ih (nodup_cons.2 ⟨hnext, hnodup⟩)
        (cons_subset.2 ⟨hclosed hmem, hpath⟩) ?_
      rw [length_cons]
      omega
    unfold loopLeaf
    split_ifs
    · simp
    · cases hres : loopElements (loopLeaf targets fuel) path verified (targets o) with
      | loop leaf uuids => simp
      | endless => exact absurd hres helements
      | verified table => simp

end Search

/-! ## The check -/

section Check

variable {S : Schema} {σ : State} {a : CString}

lemma loopChecksOf_verified {starts verified table : List DbObject}
    (h : loopChecksOf σ a verified starts = .verified table)
    (hverified : ∀ x ∈ verified, Ends (fun o => σ.items.value o a) x) :
    ∀ x ∈ starts, Ends (fun o => σ.items.value o a) x := by
  induction starts generalizing verified with
  | nil => simp
  | cons o rest ih =>
    unfold loopChecksOf at h
    cases hres : loopLeaf (fun o => σ.items.value o a) (σ.items.objects.length + 1) verified [o] o
      with
    | loop leaf uuids => simp [hres] at h
    | endless => simp [hres] at h
    | verified table' =>
      simp only [hres] at h
      obtain ⟨ho, htable'⟩ := loopLeaf_verified hres hverified
      exact forall_mem_cons.2 ⟨ho, ih h (forall_mem_cons.2 ⟨ho, htable'⟩)⟩

lemma mem_loopStarts {o : DbObject} : o ∈ σ.loopStarts a ↔ (a, o) ∈ σ.loopTable := by
  constructor
  · intro ho
    obtain ⟨e, he, rfl⟩ := mem_map.1 ho
    obtain ⟨he, hea⟩ := mem_filter.1 he
    have hea' : e.1 = a := by simpa using hea
    exact hea' ▸ he
  · intro ho
    exact mem_map.2 ⟨(a, o), mem_filter.2 ⟨ho, by simp⟩, rfl⟩

lemma loopChecks_ok {anames : List CString} (h : loopChecks σ anames = .ok ()) :
    ∀ a ∈ anames, ∀ o ∈ σ.loopStarts a, Ends (fun o => σ.items.value o a) o := by
  induction anames with
  | nil => simp
  | cons a rest ih =>
    unfold loopChecks at h
    cases hres : loopChecksOf σ a [] (σ.loopStarts a) with
    | loop leaf uuids => simp [hres] at h
    | endless => simp [hres] at h
    | verified table =>
      simp only [hres] at h
      exact forall_mem_cons.2 ⟨loopChecksOf_verified hres (by simp), ih h⟩

/-- If the loop checks pass, then no path from an item with a scheduled check goes on forever. -/
theorem ends_of_udbDoLoopChecks (h : udbDoLoopChecks σ = .ok ()) {o : DbObject}
    (ho : (a, o) ∈ σ.loopTable) : Ends (fun o => σ.items.value o a) o := by
  refine loopChecks_ok h a ?_ o (mem_loopStarts.2 ho)
  exact mem_dedup.2 (mem_map.2 ⟨(a, o), ho, rfl⟩)

lemma loopChecksOf_ne_endless (hclosed : ∀ {x y}, y ∈ σ.items.value x a → y ∈ σ.items.objects)
    {starts verified : List DbObject} (hstarts : starts ⊆ σ.items.objects) :
    loopChecksOf σ a verified starts ≠ .endless := by
  induction starts generalizing verified with
  | nil => simp [loopChecksOf]
  | cons o rest ih =>
    obtain ⟨ho, hrest⟩ := cons_subset.1 hstarts
    have hleaf : loopLeaf (fun o => σ.items.value o a) (σ.items.objects.length + 1) verified [o] o
        ≠ .endless :=
      loopLeaf_ne_endless hclosed (nodup_singleton o)
        (by simpa using ho) (by simp)
    unfold loopChecksOf
    cases hres : loopLeaf (fun o => σ.items.value o a) (σ.items.objects.length + 1) verified [o] o
      with
    | loop leaf uuids => simp
    | endless => exact absurd hres hleaf
    | verified table => exact ih hrest

lemma udbDoLoopChecks_ne_endless (hclosed : ∀ {a x y}, y ∈ σ.items.value x a → y ∈ σ.items.objects)
    (hscheduled : ∀ e ∈ σ.loopTable, e.2 ∈ σ.items.objects) :
    udbDoLoopChecks σ ≠ .error .endless := by
  have hall : ∀ anames, loopChecks σ anames ≠ .error .endless := by
    intro anames
    induction anames with
    | nil => simp [loopChecks]
    | cons a rest ih =>
      have hstarts : σ.loopStarts a ⊆ σ.items.objects :=
        fun o ho => hscheduled (a, o) (mem_loopStarts.1 ho)
      unfold loopChecks
      cases hres : loopChecksOf σ a [] (σ.loopStarts a) with
      | loop leaf uuids => simp
      | endless => exact absurd hres (loopChecksOf_ne_endless hclosed hstarts)
      | verified table => exact ih
  exact hall _

end Check

/-! ## Pointers that no check would find -/

/-- A pointer between undeleted items from which no loop check starts, and which the reference
checks do not report. -/
def Unseen (S : Schema) (σ : State) (a : CString) (x y : DbObject) : Prop :=
  σ.items.refers a x y ∧ ¬ Covered S σ.items σ.loopTable a x y ∧
    ¬ (S.action σ.items a x = .block ∧ y ∈ σ.refTable)

section Steps

variable {S : Schema} {σ τ : State} {a : CString} {x y : DbObject}

lemma Covered.congr {I J : Items} {loops loops' : List (CString × DbObject)}
    (h : Covered S I loops a x y) (hx : J.cls x = I.cls x) (hy : J.cls y = I.cls y)
    (hkeep : ∀ o, o = x ∨ o = y → (a, o) ∈ loops → (a, o) ∈ loops') : Covered S J loops' a x y := by
  unfold Covered at h ⊢
  cases hkind : S.kind a with
  | scalar =>
    rw [hkind] at h
    intro hd
    rw [hy] at hd
    exact hkeep y (.inr rfl) (h hd)
  | vector =>
    rw [hkind] at h
    intro hd
    rw [hx] at hd
    exact hkeep x (.inl rfl) (h hd)

/-- A deletion makes no pointer escape the checks. -/
theorem Shrinks.unseen (h : Shrinks σ τ) (hτ : Unseen S τ a x y) : Unseen S σ a x y := by
  obtain ⟨⟨hx, hy, hval⟩, hcov, hblock⟩ := hτ
  refine ⟨⟨h.alive hx, h.alive hy, h.value hval⟩, fun hc => hcov ?_, fun hb => hblock ?_⟩
  · refine hc.congr (by rw [h.cls]) (by rw [h.cls]) ?_
    rintro o (rfl | rfl) ho
    · exact h.loops ho hx.2
    · exact h.loops ho hy.2
  · exact ⟨by rw [h.action]; exact hb.1, h.refTable hb.2⟩

/-- Storing values of item `l` makes no old pointer escape the checks. -/
theorem Saved.unseen_of_mirror {l : DbObject} {newObject : Bool} (h : Saved S σ τ l newObject)
    (hτ : Unseen S τ a x y) (hold : (a, x, y) ∈ σ.items.mirror) (hy : σ.items.Alive y) :
    Unseen S σ a x y := by
  obtain ⟨_, hcov, hblock⟩ := hτ
  have hclsx := h.cls x hold.1.1
  have hclsy := h.cls y hy.1
  refine ⟨⟨hold.1, hy, hold.2⟩, fun hc => hcov ?_, fun hb => hblock ?_⟩
  · exact hc.congr hclsx hclsy fun o _ ho => h.grows _ ho
  · refine ⟨?_, by rw [h.refTable]; exact hb.2⟩
    unfold Schema.action at hb ⊢
    rw [hclsx]
    exact hb.1

/-- After an update the only new pointers are covered by loop checks. -/
theorem Saved.unseen_update {l : DbObject} (h : Saved S σ τ l false) (hτ : Unseen S τ a x y) :
    Unseen S σ a x y := by
  have hlive : σ.items.Alive l := not_not.1 (mt h.before.2 (by simp))
  obtain ⟨hx, hy, hval⟩ := hτ.1
  have hy' : σ.items.Alive y := by
    by_cases hyl : y = l
    · exact hyl ▸ hlive
    · exact (h.alive_iff y hyl).1 hy
  refine h.unseen_of_mirror hτ ?_ hy'
  by_cases hxl : x = l
  · subst hxl
    by_contra hnew
    exact hτ.2.1 (h.covered rfl hval hnew)
  · exact ⟨(h.alive_iff x hxl).1 hx, by rw [← h.value x hxl]; exact hval⟩

/-- Nothing that escapes the checks points at an item that was just created or undeleted. -/
theorem Saved.not_unseen_new {l : DbObject} (hσ : Sound S σ) (htidy : Tidy S σ ∅)
    (h : Saved S σ τ l true) : ¬ Unseen S τ a x l := by
  rintro ⟨⟨hx, _, hval⟩, _, hblock⟩
  have hdead : ¬ σ.items.Alive l := h.before.1 rfl
  by_cases hxl : x = l
  · subst hxl
    rcases h.fresh hval with hold | halive
    · exact hdead hold.1
    · exact hdead halive
  · have hold : (a, x, l) ∈ σ.items.mirror :=
      ⟨(h.alive_iff x hxl).1 hx, by rw [← h.value x hxl]; exact hval⟩
    have hdel : σ.items.deleted l = true := by
      by_contra hne
      exact hdead ⟨hσ.typed.objects hold.2, by simpa using hne⟩
    rcases htidy a x l hold hdel with hD | ⟨hact, href⟩
    · exact hD
    · refine hblock ⟨?_, by rw [h.refTable]; exact href⟩
      unfold Schema.action at hact ⊢
      rw [h.cls x hold.1.1]
      exact hact

/-- One call keeps the unseen pointers free of loops. -/
theorem Effect.acyclic {op : Op} (hσ : Sound S σ) (htidy : Tidy S σ ∅) (h : Effect S σ τ op)
    (hacyc : Acyclic (Unseen S σ a)) : Acyclic (Unseen S τ a) := by
  have hnew : ∀ {l}, Saved S σ τ l true → Acyclic (Unseen S τ a) := by
    intro l hsaved
    refine hacyc.add_source ?_ (fun x => hsaved.not_unseen_new hσ htidy)
    intro x y hxy hxl
    have hyl : y ≠ l := fun he => hsaved.not_unseen_new hσ htidy (he ▸ hxy)
    obtain ⟨hx, hy, hval⟩ := hxy.1
    refine hsaved.unseen_of_mirror hxy ?_ ((hsaved.alive_iff y hyl).1 hy)
    exact ⟨(hsaved.alive_iff x hxl).1 hx, by rw [← hsaved.value x hxl]; exact hval⟩
  cases h with
  | create _ hsaved => exact hnew hsaved
  | update hsaved => exact hacyc.mono fun x y => hsaved.unseen_update
  | delete _ _ hshrinks _ => exact hacyc.mono fun x y => hshrinks.unseen
  | undelete _ hsaved => exact hnew hsaved

end Steps

/-! ## Transactions -/

/-- The states in which a transaction can start: it is the first one, or the one before it passed
the reference checks.  Loop checks are not asked for, since loop detection can be switched on
later. -/
inductive Committed (S : Schema) : State → Prop
  | empty : Committed S State.empty
  | commit {σ} (h : Committed S σ) (ops : List Op)
      (href : udbDoReferenceChecks (run S σ ops) = .ok ()) :
      Committed S (run S σ ops).resetChecks

lemma run_tidy {S : Schema} {σ : State} (h : Sound S σ) (htidy : Tidy S σ ∅) (ops : List Op) :
    Sound S (run S σ ops) ∧ Tidy S (run S σ ops) ∅ :=
  run_induction (fun σ => Tidy S σ ∅) (fun _ _ => True)
    (fun _ _ hinv _ heffect => heffect.tidy hinv) h htidy fun _ _ _ _ => trivial

/-- No reference dangles when the reference checks have passed. -/
theorem Tidy.noDangling {S : Schema} {σ : State} (h : Sound S σ) (htidy : Tidy S σ ∅)
    (href : udbDoReferenceChecks σ = .ok ()) : NoDangling σ := by
  intro l a o halive hval
  by_contra hne
  rcases htidy a l o ⟨halive, hval⟩ (by simpa using hne) with hD | ⟨hact, ho⟩
  · exact hD
  · exact h.referenceChecks_iff.1 href ⟨halive, hval⟩ hact ho

lemma Committed.start {S : Schema} {σ : State} (h : Committed S σ) :
    Sound S σ ∧ NoDangling σ ∧ σ.refTable = [] ∧ σ.loopTable = [] := by
  induction h with
  | empty =>
    have hclean : NoDangling State.empty := fun _ _ _ _ _ => rfl
    exact ⟨Sound.empty, hclean, rfl, rfl⟩
  | commit _ ops href ih =>
    obtain ⟨hsound, htidy⟩ := run_tidy ih.1 ih.2.1.tidy ops
    have hclean : NoDangling (run S _ ops) := Tidy.noDangling hsound htidy href
    exact ⟨hsound.resetChecks, hclean, rfl, rfl⟩

/-- If loops are detected for an attribute and its reference graph has no loop when a transaction
starts, then it has none when the transaction has passed both checks. -/
theorem acyclic_of_run (S : Schema) (a : CString)
    (hdetect : ∀ cname, a ∈ S.relattributes cname → S.detectLoops cname a = true) (σ : State)
    (hσ : Committed S σ) (hacyc : Acyclic (σ.items.refers a)) (ops : List Op)
    (href : udbDoReferenceChecks (run S σ ops) = .ok ())
    (hloop : udbDoLoopChecks (run S σ ops) = .ok ()) : Acyclic ((run S σ ops).items.refers a) := by
  obtain ⟨hstart, hclean, _, _⟩ := hσ.start
  obtain ⟨hsound, _, hunseen⟩ := run_induction
    (fun σ => Tidy S σ ∅ ∧ Acyclic (Unseen S σ a)) (fun _ _ => True)
    (fun hσ _ hinv _ heffect => ⟨heffect.tidy hinv.1, heffect.acyclic hσ hinv.1 hinv.2⟩)
    hstart ⟨hclean.tidy, hacyc.mono fun x y hxy => hxy.1⟩ fun _ _ _ _ => trivial
  generalize run S σ ops = τ at href hloop hsound hunseen
  -- An item with a scheduled check is on no loop.
  have hseen : ∀ {o}, (a, o) ∈ τ.loopTable → ¬ TransGen (τ.items.refers a) o o := by
    intro o ho hcycle
    have hends := ends_of_udbDoLoopChecks hloop ho
    exact not_transGen_of_acc (r := fun x y => y ∈ τ.items.value x a) hends
      (TransGen.mono (fun x y hxy => hxy.2.2) o o hcycle)
  intro x hx
  refine hunseen x (TransGen.mono ?_ x x (transGen_on_cycle hx hx))
  -- So all pointers on a loop are unseen.
  rintro v w ⟨hvw, hv, hw⟩
  have hclass : ∀ {u}, TransGen (τ.items.refers a) u u →
      S.detectLoops (τ.items.cls u) a = true := by
    intro u hu
    obtain ⟨u', huu', _⟩ := TransGen.head'_iff.1 hu
    exact hdetect _ (hsound.typed.known huu'.2.2)
  refine ⟨hvw, ?_, ?_⟩
  · intro hcov
    unfold Covered at hcov
    cases hkind : S.kind a with
    | scalar =>
      rw [hkind] at hcov
      exact hseen (hcov (hclass hw)) hw
    | vector =>
      rw [hkind] at hcov
      exact hseen (hcov (hclass hv)) hv
  · rintro ⟨hact, hmem⟩
    exact hsound.referenceChecks_iff.1 href ⟨hvw.1, hvw.2.2⟩ hact hmem

/-- Item 1 is made to point at item 2 after item 2 no longer points at it. -/
theorem acyclic_of_run_turned :
    Acyclic ((run (oneAttribute .block) State.empty
      (pointing ++ [.update 2 [(['p'], [])], .update 1 [(['p'], [2])]])).items.refers ['p']) := by
  refine acyclic_of_run (oneAttribute .block) ['p'] (fun _ _ => rfl) State.empty .empty ?_
    (pointing ++ [.update 2 [(['p'], [])], .update 1 [(['p'], [2])]]) (by decide +kernel)
    (by decide +kernel)
  intro x hx
  obtain ⟨y, hxy, _⟩ := TransGen.head'_iff.1 hx
  cases hxy.2.2

end Refint
end Unameit
