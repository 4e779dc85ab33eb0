import Mathlib.Data.List.Perm.Subperm
import Unameit.Lib.Parents
import Unameit.Region.Basic

/-!
# Region.Cells — the cell of a region

The way from a region up to its cell goes through plain regions (`Way`).  It is what `Udb_Get_Cell`
follows, which comes to its end because no region is on the way twice.  So updates succeed or fail by
the cells alone (`checkOwner_plain`), also in the middle of a change, when names and owners do not
fit together.
-/

namespace Unameit
namespace Region

open List
open Region.Tree

variable {tree tree' : Tree}

/-! ## Ways to cells -/

def Tree.up (tree : Tree) (r : Uuid) : Option Uuid :=
  if tree.isCell r then none else some (tree.owner r)

structure Way (tree : Tree) (x : Uuid) (l : List Uuid) (c : Uuid) : Prop where
  above : Above tree.up x l
  mem : c ∈ x :: l
  isCell : tree.isCell c = true
  items : ∀ y ∈ x :: l, y ∈ tree.items

namespace Way

variable {x y c c' : Uuid} {l l' : List Uuid}

lemma cell (h : tree.isCell x = true) (hx : x ∈ tree.items) : Way tree x [] x where
  above := .top (if_pos h)
  mem := List.mem_cons_self
  isCell := h
  items := by simpa using hx

lemma plain (h : tree.isCell x = false) (hx : x ∈ tree.items)
    (hway : Way tree (tree.owner x) l c) : Way tree x (tree.owner x :: l) c where
  above := .step (if_neg (by simp [h])) hway.above
  mem := List.mem_cons_of_mem _ hway.mem
  isCell := hway.isCell
  items := List.forall_mem_cons.2 ⟨hx, hway.items⟩

section

variable (h : Way tree x l c)

include h

/-- The way from a plain region goes on from its owner. -/
theorem tail (hplain : tree.isCell x = false) :
    ∃ l', l = tree.owner x :: l' ∧ Way tree (tree.owner x) l' c := by
  obtain ⟨habove, hmem, hcell, hitems⟩ := h
  cases habove with
  | top ha => simp [up, hplain] at ha
  | @step _ b l' ha hb =>
    obtain rfl : tree.owner x = b := by simpa [up, hplain] using ha
    have hne : c ≠ x := by
      rintro rfl
      simp [hplain] at hcell
    exact ⟨l', rfl, hb, (mem_cons.1 hmem).resolve_left hne, hcell,
      fun y hy => hitems y (mem_cons_of_mem _ hy)⟩

/-- The owner of a plain region on the way is on the way. -/
theorem owner_mem (hy : y ∈ x :: l) (hplain : tree.isCell y = false) : tree.owner y ∈ x :: l := by
  have habove := h.above
  clear h
  induction habove with
  | top ha =>
    obtain rfl := mem_singleton.1 hy
    simp [up, hplain] at ha
  | @step a b l ha _ ih =>
    rcases mem_cons.1 hy with rfl | hy
    · obtain rfl : tree.owner y = b := by simpa [up, hplain] using ha
      simp
    · exact mem_cons_of_mem _ (ih hy)

/-- A way is not affected by changes elsewhere. -/
theorem congr (hitems : ∀ y ∈ x :: l, y ∈ tree'.items)
    (hcell : ∀ y ∈ x :: l, tree'.isCell y = tree.isCell y)
    (howner : ∀ y ∈ x :: l, tree.isCell y = false → tree'.owner y = tree.owner y) :
    Way tree' x l c := by
  have hup : ∀ y ∈ x :: l, tree'.up y = tree.up y := by
    intro y hy
    cases hc : tree.isCell y with
    | true => simp [up, hcell y hy, hc]
    | false => simp [up, hcell y hy, hc, howner y hy hc]
  refine ⟨?_, h.mem, ?_, hitems⟩
  · have habove := h.above
    clear hitems hcell howner h
    induction habove with
    | top ha => exact .top ((hup _ mem_cons_self).trans ha)
    | step ha _ ih =>
      exact .step ((hup _ mem_cons_self).trans ha)
        (ih fun y hy => hup y (mem_cons_of_mem _ hy))
  · rw [hcell c h.mem]
    exact h.isCell

lemma of_mem (hy : y ∈ x :: l) : ∃ l', Way tree y l' c := by
  have habove := h.above
  have hmem := h.mem
  have hcell := h.isCell
  have hitems := h.items
  clear h
  induction habove with
  | @top a ha =>
    obtain rfl := mem_singleton.1 hy
    exact ⟨[], .top ha, hmem, hcell, hitems⟩
  | @step a b l ha hb ih =>
    have hne : c ≠ a := by
      rintro rfl
      simp [up, hcell] at ha
    rcases mem_cons.1 hy with rfl | hy
    · exact ⟨b :: l, .step ha hb, hmem, hcell, hitems⟩
    · exact ih hy ((mem_cons.1 hmem).resolve_left hne)
        fun z hz => hitems z (mem_cons_of_mem _ hz)

lemma length_lt : l.length < tree.items.length + 1 := by
  have hsub := (h.above.nodup.subperm h.items).length_le
  simp only [length_cons] at hsub
  omega

lemma unique (h' : Way tree x l' c') : l = l' ∧ c = c' := by
  obtain rfl := h.above.unique h'.above
  refine ⟨rfl, ?_⟩
  have habove := h.above
  have hc := h.mem
  have hc' := h'.mem
  have hcell := h.isCell
  have hcell' := h'.isCell
  clear h h'
  induction habove with
  | top _ => exact (mem_singleton.1 hc).trans (mem_singleton.1 hc').symm
  | @step a b l ha _ ih =>
    have hne : ∀ d, tree.isCell d = true → d ≠ a := by
      rintro d hd rfl
      simp [up, hd] at ha
    exact ih ((mem_cons.1 hc).resolve_left (hne c hcell))
      ((mem_cons.1 hc').resolve_left (hne c' hcell'))

end

lemma getCell_of_above (h : Above tree.up x l) {fuel : ℕ} (hlen : l.length < fuel)
    (hc : c ∈ x :: l) (hcell : tree.isCell c = true) {loopobj : Option Uuid}
    (hloop : ∀ y ∈ x :: l, tree.isCell y = false → loopobj ≠ some y) :
    udbGetCell tree loopobj fuel x = .ok (some c) := by
  induction h generalizing fuel with
  | @top a ha =>
    obtain rfl := mem_singleton.1 hc
    cases fuel with
    | zero => simp at hlen
    | succ fuel => simp [udbGetCell, hcell]
  | @step a b l ha _ ih =>
    cases hplain : tree.isCell a with
    | true => simp [up, hplain] at ha
    | false =>
      have hb : tree.owner a = b := by simpa [up, hplain] using ha
      have hne : c ≠ a := by
        rintro rfl
        simp [hplain] at hcell
      cases fuel with
      | zero => simp at hlen
      | succ fuel =>
        have hrest := ih (Nat.lt_of_succ_lt_succ hlen) ((mem_cons.1 hc).resolve_left hne)
          fun y hy => hloop y (mem_cons_of_mem _ hy)
        simp [udbGetCell, hplain, hloop a mem_cons_self hplain, hb, hrest]

lemma getCell_loop_of_above (h : Above tree.up x l) {fuel : ℕ} (hlen : l.length < fuel)
    (hy : y ∈ x :: l) (hplain : tree.isCell y = false) :
    udbGetCell tree (some y) fuel x = .ok none := by
  induction h generalizing fuel with
  | @top a ha =>
    obtain rfl := mem_singleton.1 hy
    simp [up, hplain] at ha
  | @step a b l ha _ ih =>
    cases fuel with
    | zero => simp at hlen
    | succ fuel =>
      cases hacell : tree.isCell a with
      | true => simp [up, hacell] at ha
      | false =>
        have hb : tree.owner a = b := by simpa [up, hacell] using ha
        by_cases hya : y = a
        · simp [udbGetCell, hacell, hya]
        · have hrest := ih (Nat.lt_of_succ_lt_succ hlen) ((mem_cons.1 hy).resolve_left hya)
          simp [udbGetCell, hacell, hya, hb, hrest]

lemma cellOf (h : Way tree x l c) : udbCellOf tree x = .ok (some c) :=
  getCell_of_above h.above h.length_lt h.mem h.isCell (by simp)

end Way

structure SameWays (tree tree' : Tree) : Prop where
  items : tree'.items = tree.items
  isCell : tree'.isCell = tree.isCell
  owner : ∀ r, tree.isCell r = false → tree'.owner r = tree.owner r

lemma SameWays.way (h : SameWays tree tree') {x c : Uuid} {l : List Uuid}
    (hway : Way tree x l c) : Way tree' x l c :=
  hway.congr (fun y hy => h.items ▸ hway.items y hy) (fun _ _ => by rw [h.isCell])
    fun y _ => h.owner y

/-! ## Checking owners -/

section CheckOwner

variable {r o c c' : Uuid} {l l' : List Uuid}

lemma cellOf_cell (h : tree.isCell r = true) : udbCellOf tree r = .ok (some r) := by
  simp [udbCellOf, udbGetCell, h]

lemma checkOwner_cell (h : tree.isCell r = true) : checkOwner tree r o = .ok () := by
  simp [checkOwner, cellOf_cell h, bind, Except.bind, pure, Except.pure]

lemma checkOwner_plain (hplain : tree.isCell r = false) (hr : Way tree r l c)
    (ho : Way tree o l' c') (hro : r ∉ o :: l') :
    checkOwner tree r o = if c' = c then .ok () else .error (.error (.ecellmove r o)) := by
  have hnew : udbGetCell tree (some r) (tree.items.length + 1) o = .ok (some c') := by
    refine Way.getCell_of_above ho.above ho.length_lt ho.mem ho.isCell ?_
    rintro y hy _ heq
    obtain rfl := Option.some.inj heq
    exact hro hy
  have hne : c ≠ r := by
    rintro rfl
    simp [hr.isCell] at hplain
  simp only [checkOwner, hr.cellOf, hnew, bind, Except.bind]
  by_cases hc : c' = c
  · simp [hc, hne, pure, Except.pure]
  · simp [hc, hne, throw, throwThe, MonadExceptOf.throw]

/-- A region cannot go below itself. -/
theorem checkOwner_loop (hplain : tree.isCell r = false) (hr : Way tree r l c)
    (ho : Way tree o l' c') (hro : r ∈ o :: l') :
    checkOwner tree r o = .error (.error (.ecellmove r o)) := by
  have hnew := Way.getCell_loop_of_above ho.above ho.length_lt hro hplain
  have hne : c ≠ r := by
    rintro rfl
    simp [hr.isCell] at hplain
  simp [checkOwner, hr.cellOf, hnew, hne, bind, Except.bind, throw, throwThe, MonadExceptOf.throw]

end CheckOwner

end Region
end Unameit
