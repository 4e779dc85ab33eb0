import Unameit.Auth.Basic

/-!
# Auth.Roles — the flattened role hierarchy is the role tree

`unameit_reload_roles` reads the roles in whatever order the query returns them, so the lists of
ancestors are built up edge by edge: after some roles the list of every role holds its ancestors as
far as they are known from these (`Hierarchy.Built`).  The order of the lists matters for the second
part, which hands the classes of a role on to its ancestors and stops at the first one that already
has the class (`mem_classLists_iff`).
-/

namespace Unameit
namespace Auth

open List

variable {r s r1 : DbObject} {rlist : List Role} {done : DbObject → DbObject → Prop}
  {lists : ClassLists}

open Hierarchy

/-! ## Ancestors and descendants -/

structure Hierarchy.Agrees (ids : List DbObject) (h : Hierarchy) : Prop where
  dl : ∀ r s, s ∈ h.dl r ↔ r ∈ h.al s
  once : ∀ r, (h.al r).Nodup ∧ (h.dl r).Nodup
  isdesc : ∀ r s, h.isdesc r s = true ↔ (r = s ∧ r ∈ ids) ∨ s ∈ h.al r

lemma nodup_update_concat {f : DbObject → List DbObject} (hf : ∀ x, (f x).Nodup) (hs : s ∉ f r)
    (x : DbObject) : (Function.update f r (f r ++ [s]) x).Nodup := by
  by_cases hx : x = r
  · subst hx
    rw [Function.update_self]
    exact (nodup_cons.2 ⟨hs, hf x⟩).perm (perm_append_singleton s _).symm
  · rw [Function.update_of_ne hx]
    exact hf x

structure Hierarchy.Built (ids : List DbObject) (parent : DbObject → Option DbObject)
    (h : Hierarchy) : Prop extends h.Agrees ids where
  al : ∀ r, Above parent r (h.al r)

namespace Hierarchy

variable {ids : List DbObject} {parent : DbObject → Option DbObject} {h : Hierarchy}

lemma Agrees.add (hh : h.Agrees ids) (r s : DbObject) :
    (h.add r s).Agrees ids ∧
      ∀ x, (h.add r s).al x = h.al x ++ if x = r ∧ ¬ h.isdesc x s then [s] else [] := by
  unfold Hierarchy.add
  split_ifs with hrs
  · refine ⟨hh, fun x => ?_⟩
    have hx : ¬ (x = r ∧ ¬ h.isdesc x s) := by
      rintro ⟨rfl, hx⟩
      exact hx hrs
    rw [if_neg hx, append_nil]
  · have hal : ∀ x y, y ∈ Function.update h.al r (h.al r ++ [s]) x ↔
        y ∈ h.al x ∨ (x = r ∧ y = s) := by
      intro x y
      by_cases hx : x = r
      · subst hx
        simp
      · simp [hx]
    refine ⟨{ dl := fun x y => ?_, once := fun x => ?_, isdesc := fun x y => ?_ }, fun x => ?_⟩
    · rw [hal]
      by_cases hx : x = s
      · subst hx
        simp [hh.dl]
      · simp [hx, hh.dl]
    · have hnew : s ∉ h.al r := fun hr => hrs ((hh.isdesc r s).2 (.inr hr))
      have hnew' : r ∉ h.dl s := fun hr => hnew ((hh.dl s r).1 hr)
      refine ⟨nodup_update_concat (fun x => (hh.once x).1) hnew x, ?_⟩
      exact nodup_update_concat (fun x => (hh.once x).2) hnew' x
    · rw [hal, ← or_assoc, ← hh.isdesc]
      by_cases hx : x = r
      · subst hx
        by_cases hy : y = s
        · subst hy
          simp
        · simp [hy]
      · simp [hx]
    · by_cases hx : x = r
      · subst hx
        simp [hrs]
      · simp [hx]

lemma Agrees.addAll (hh : h.Agrees ids) (l : List DbObject) (s : DbObject) :
    (l.foldl (fun h r => h.add r s) h).Agrees ids ∧
      ∀ x, (l.foldl (fun h r => h.add r s) h).al x =
        h.al x ++ if x ∈ l ∧ ¬ h.isdesc x s then [s] else [] := by
  induction l generalizing h with
  | nil => exact ⟨hh, by simp⟩
  | cons r l ih =>
    obtain ⟨hadd, hal⟩ := hh.add r s
    obtain ⟨hall, hal'⟩ := ih hadd
    refine ⟨hall, fun x => ?_⟩
    -- `x` is a descendant of `s` afterwards if it was one before or has just become one
    have hdesc : (h.add r s).isdesc x s = true ↔ h.isdesc x s = true ∨ x = r := by
      unfold Hierarchy.add
      split_ifs with hrs
      · refine ⟨.inl, ?_⟩
        rintro (hx | rfl)
        · exact hx
        · exact hrs
      · by_cases hx : x = r
        · subst hx
          simp
        · simp [hx]
    rw [foldl_cons, hal', hal]
    by_cases hx : x = r <;> by_cases hd : h.isdesc x s = true <;> simp [hdesc, hx, hd] <;>
      simp_all

lemma addSuper_eq {r2 : DbObject} (hne : r1 ≠ r2) (hr : ¬ h.isdesc r1 r2) :
    h.addSuper r1 r2 = (r1 :: h.dl r1).foldl (fun h r => h.add r r2) h := by
  have hdl : (h.add r1 r2).dl r1 = h.dl r1 := by
    simp [add, hr, Function.update_of_ne hne]
  simp only [addSuper, if_neg hr, hdl, foldl_cons]

/-- The loop over the new ancestors of a role without ancestors: they are appended to the lists of
the role and of its descendants.  None of the new ones is a descendant of the role. -/
theorem Agrees.addSupers (hh : h.Agrees ids) (l : List DbObject) (hn : l.Nodup)
    (hl : ∀ s ∈ l, ∀ x, x = r1 ∨ r1 ∈ h.al x → s ≠ x ∧ s ∉ h.al x) :
    (l.foldl (fun h r2 => h.addSuper r1 r2) h).Agrees ids ∧
      ∀ x, (l.foldl (fun h r2 => h.addSuper r1 r2) h).al x =
        h.al x ++ if x = r1 ∨ r1 ∈ h.al x then l else [] := by
  induction l generalizing h with
  | nil => exact ⟨hh, by simp⟩
  | cons s l ih =>
    obtain ⟨hs, hn⟩ := nodup_cons.1 hn
    have hnot : ∀ x, x = r1 ∨ r1 ∈ h.al x → ¬ h.isdesc x s := by
      intro x hx hd
      obtain ⟨hne, hmem⟩ := hl s mem_cons_self x hx
      rcases (hh.isdesc x s).1 hd with ⟨rfl, -⟩ | hd
      · exact hne rfl
      · exact hmem hd
    have hne : r1 ≠ s := fun he => (hl s mem_cons_self r1 (.inl rfl)).1 he.symm
    obtain ⟨hadd, hal⟩ := hh.addAll (r1 :: h.dl r1) s
    rw [← addSuper_eq hne (hnot r1 (.inl rfl))] at hadd hal
    have hal : ∀ x, (h.addSuper r1 s).al x =
        h.al x ++ if x = r1 ∨ r1 ∈ h.al x then [s] else [] := by
      intro x
      rw [hal]
      by_cases hx : x = r1 ∨ r1 ∈ h.al x
      · have hx' : x ∈ r1 :: h.dl r1 ∧ ¬ h.isdesc x s :=
          ⟨by simpa [hh.dl] using hx, hnot x hx⟩
        rw [if_pos hx, if_pos hx']
      · have hx' : ¬ (x ∈ r1 :: h.dl r1 ∧ ¬ h.isdesc x s) := by
          rintro ⟨hx', -⟩
          exact hx (by simpa [hh.dl] using hx')
        rw [if_neg hx, if_neg hx']
    have hbelow : ∀ x, (x = r1 ∨ r1 ∈ (h.addSuper r1 s).al x) ↔ (x = r1 ∨ r1 ∈ h.al x) := by
      intro x
      rw [hal]
      split_ifs with hx <;> simp [hx, hne]
    have hl' : ∀ t ∈ l, ∀ x, x = r1 ∨ r1 ∈ (h.addSuper r1 s).al x →
        t ≠ x ∧ t ∉ (h.addSuper r1 s).al x := by
      intro t ht x hx
      rw [hbelow] at hx
      obtain ⟨hne, hmem⟩ := hl t (mem_cons_of_mem _ ht) x hx
      refine ⟨hne, ?_⟩
      rw [hal, if_pos hx, mem_append, mem_singleton]
      rintro (ht' | rfl)
      · exact hmem ht'
      · exact hs ht
    obtain ⟨hall, hal'⟩ := ih hadd hn hl'
    refine ⟨hall, fun x => ?_⟩
    rw [foldl_cons, hal']
    simp only [hbelow]
    rw [hal]
    split_ifs <;> simp

/-- A role that has had no parent so far gets its owner. -/
theorem Built.addRole (hh : h.Built ids parent) {r : Role} (hr : parent r.uuid = none)
    {height : DbObject → ℕ} (hlt : ∀ a b, parent a = some b → height b < height a)
    (hown : ∀ o ∈ r.owner, height o < height r.uuid) :
    (h.addRole r).Built ids (Function.update parent r.uuid r.owner) := by
  unfold Hierarchy.addRole
  cases ho : r.owner with
  | none =>
    have heq : Function.update parent r.uuid none = parent := by
      rw [← hr, Function.update_eq_self]
    rw [heq]
    exact hh
  | some o =>
    have hor : height o < height r.uuid := hown o (by simp [ho])
    have habove := hh.al o
    -- the new ancestors are lower than the role, and what is below the role is not
    have hlow : ∀ s ∈ o :: h.al o, height s < height r.uuid := by
      intro s hs
      rcases mem_cons.1 hs with rfl | hs
      · exact hor
      · exact (habove.height_lt hlt s hs).trans hor
    have hnew : ∀ s ∈ o :: h.al o, ∀ x, x = r.uuid ∨ r.uuid ∈ h.al x →
        s ≠ x ∧ s ∉ h.al x := by
      intro s hs x hx
      have hge := (hh.al x).height_le_of_top hlt hr
        (mem_cons.2 (hx.imp Eq.symm id))
      have hs := hlow s hs
      refine ⟨?_, fun hsx => ?_⟩
      · rintro rfl
        exact absurd (hge s mem_cons_self) (by omega)
      · exact absurd (hge s (mem_cons_of_mem _ hsx)) (by omega)
    obtain ⟨hagrees, hal⟩ := hh.toAgrees.addSupers (o :: h.al o) habove.nodup hnew
    refine { toAgrees := hagrees, al := fun x => ?_ }
    rw [hal]
    exact Above.graft hr habove (fun hmem => lt_irrefl _ (hlow _ hmem)) (hh.al x)

end Hierarchy

/-! ## All roles -/

structure RoleForest (rlist : List Role) : Prop where
  uuids : (rlist.map Role.uuid).Nodup
  owners : ∀ r ∈ rlist, ∀ o ∈ r.owner, o ∈ rlist.map Role.uuid
  tree : ∃ height : DbObject → ℕ, ∀ r ∈ rlist, ∀ o ∈ r.owner, height o < height r.uuid

lemma SoundRoles.forest (hs : SoundRoles rlist) : RoleForest rlist :=
  ⟨hs.uuids, hs.owners, hs.tree⟩

/-- Without the rest of the list a role has the same parent or none. -/
theorem parentRole_append_singleton {done : List Role} {r : Role}
    (hr : r.uuid ∉ done.map Role.uuid) :
    parentRole (done ++ [r]) = Function.update (parentRole done) r.uuid r.owner := by
  have hnone : done.find? (·.uuid = r.uuid) = none := by
    simpa [find?_eq_none] using fun x hx he => hr (mem_map.2 ⟨x, hx, he⟩)
  funext x
  by_cases hx : x = r.uuid
  · subst hx
    simp [parentRole, find?_append, hnone]
  · have hx' : r.uuid ≠ x := Ne.symm hx
    simp [parentRole, find?_append, Function.update_of_ne hx, hx']

lemma parentRole_eq_none (hr : r ∉ rlist.map Role.uuid) : parentRole rlist r = none := by
  have hnone : rlist.find? (·.uuid = r) = none := by
    simpa [find?_eq_none] using fun x hx he => hr (mem_map.2 ⟨x, hx, he⟩)
  simp [parentRole, hnone]

lemma exists_of_parentRole {a b : DbObject} (h : parentRole rlist a = some b) :
    ∃ r ∈ rlist, r.uuid = a ∧ r.owner = some b := by
  obtain ⟨r, hr, ho⟩ := Option.bind_eq_some_iff.1 h
  exact ⟨r, mem_of_find?_eq_some hr, by simpa using find?_some hr, ho⟩

lemma RoleForest.hierarchy_built (hs : RoleForest rlist) :
    (hierarchy rlist).Built (rlist.map Role.uuid) (parentRole rlist) := by
  obtain ⟨height, hheight⟩ := hs.tree
  have hlt : ∀ {done : List Role}, done ⊆ rlist →
      ∀ a b, parentRole done a = some b → height b < height a := by
    intro done hsub a b hab
    obtain ⟨r, hr, rfl, ho⟩ := exists_of_parentRole hab
    exact hheight r (hsub hr) b ho
  -- the roles that have been handled, and those still to come
  have hrun : ∀ (todo done : List Role) (h : Hierarchy), done ++ todo = rlist →
      h.Built (rlist.map Role.uuid) (parentRole done) →
      (todo.foldl addRole h).Built (rlist.map Role.uuid) (parentRole rlist) := by
    intro todo
    induction todo with
    | nil =>
      intro done h heq hb
      rw [append_nil] at heq
      exact heq ▸ hb
    | cons r todo ih =>
      intro done h heq hb
      have hr : r.uuid ∉ done.map Role.uuid := by
        have hn := hs.uuids
        rw [← heq, map_append] at hn
        exact fun hmem => (nodup_append.1 hn).2.2 _ hmem _ mem_cons_self rfl
      have hmem : r ∈ rlist := heq ▸ by simp
      have hsub : done ⊆ rlist := fun x hx => heq ▸ mem_append_left _ hx
      refine ih (done ++ [r]) _ (by simpa using heq) ?_
      rw [parentRole_append_singleton hr]
      exact hb.addRole (parentRole_eq_none hr) (hlt hsub) (hheight r hmem)
  refine hrun rlist [] _ rfl ⟨⟨?_, ?_, ?_⟩, ?_⟩
  · simp [initial]
  · simp [initial]
  · simp [initial]
  · exact fun r => .top (by simp [parentRole])

lemma RoleForest.mem_al_iff (hs : RoleForest rlist) :
    s ∈ r :: (hierarchy rlist).al r ↔ Covers rlist s r :=
  (hs.hierarchy_built.al r).mem_iff_upTo

lemma RoleForest.mem_subroles_iff (hs : RoleForest rlist) :
    s ∈ r :: (hierarchy rlist).dl r ↔ Covers rlist r s := by
  rw [← hs.mem_al_iff, mem_cons, mem_cons, hs.hierarchy_built.dl, eq_comm]

/-! ## Classes -/

namespace ClassLists

variable {cls : DbObject}

/-- Along the list of supers, those that have the class are followed by others that have it: then
nothing is lost by leaving the loop at the first of them. -/
theorem mem_propagate_iff (cname : CString) {supers : List DbObject} (hn : supers.Nodup)
    (hp : supers.Pairwise fun s t => (s, cls) ∈ lists.authorize → (t, cls) ∈ lists.authorize) :
    (∀ s c, (s, c) ∈ (propagate cls cname supers lists).authorize ↔
      (s, c) ∈ lists.authorize ∨ (c = cls ∧ s ∈ supers)) ∧
    ∀ s, (propagate cls cname supers lists).array s =
      lists.array s ++ if s ∈ supers ∧ (s, cls) ∉ lists.authorize then [cname] else [] := by
  induction supers generalizing lists with
  | nil => simp [propagate]
  | cons super supers ih =>
    obtain ⟨hsuper, hn⟩ := nodup_cons.1 hn
    obtain ⟨hfirst, hp⟩ := pairwise_cons.1 hp
    unfold propagate
    split_ifs with hmem
    · have hall : ∀ s ∈ super :: supers, (s, cls) ∈ lists.authorize := by
        intro s hs
        rcases mem_cons.1 hs with rfl | hs
        · exact hmem
        · exact hfirst s hs hmem
      refine ⟨fun s c => ⟨.inl, ?_⟩, fun s => ?_⟩
      · rintro (h | ⟨rfl, hs⟩)
        · exact h
        · exact hall s hs
      · rw [if_neg fun h => h.2 (hall s h.1), append_nil]
    · have hp' : supers.Pairwise fun s t =>
          (s, cls) ∈ (super, cls) :: lists.authorize →
            (t, cls) ∈ (super, cls) :: lists.authorize := by
        refine hp.imp_of_mem fun {s t} hs _ hst h => ?_
        rcases mem_cons.1 h with h | h
        · obtain rfl : s = super := congrArg Prod.fst h
          exact absurd hs hsuper
        · exact mem_cons_of_mem _ (hst h)
      obtain ⟨hauth, harray⟩ := @ih
        { array := Function.update lists.array super (lists.array super ++ [cname])
          authorize := (super, cls) :: lists.authorize } hn hp'
      refine ⟨fun s c => ?_, fun s => ?_⟩
      · rw [hauth, mem_cons, mem_cons, Prod.mk.injEq]
        tauto
      · rw [harray]
        by_cases hs : s = super
        · subst hs
          simp [hsuper, hmem]
        · simp [hs]

variable {cnames : DbObject → Option CString} {rlist : List Role}

structure Given (cnames : DbObject → Option CString) (al : DbObject → List DbObject)
    (done : DbObject → DbObject → Prop) (lists : ClassLists) : Prop where
  authorize : ∀ s c, (s, c) ∈ lists.authorize ↔
    (cnames c).isSome ∧ ∃ role, done role c ∧ s ∈ role :: al role
  array : ∀ s, ∃ l : List DbObject, l.Nodup ∧ lists.array s = l.filterMap cnames ∧
    ∀ c, c ∈ l ↔ (s, c) ∈ lists.authorize

lemma Given.congr {al : DbObject → List DbObject} {done' : DbObject → DbObject → Prop}
    (h : lists.Given cnames al done) (heq : ∀ role c, done role c ↔ done' role c) :
    lists.Given cnames al done' where
  authorize s c := by simp only [h.authorize, heq]
  array := h.array

lemma Given.addClass (hs : RoleForest rlist) (h : lists.Given cnames (hierarchy rlist).al done)
    (role cls : DbObject) :
    (lists.addClass cnames (hierarchy rlist).al role cls).Given cnames (hierarchy rlist).al
      fun r c => done r c ∨ (r = role ∧ c = cls) := by
  have hbuilt := hs.hierarchy_built.al
  unfold ClassLists.addClass
  cases hname : cnames cls with
  | none =>
    refine { authorize := fun s c => ?_, array := h.array }
    rw [h.authorize]
    refine and_congr_right fun hc => exists_congr fun r => and_congr_left fun _ => ?_
    refine ⟨.inl, fun hr => hr.resolve_right ?_⟩
    rintro ⟨-, rfl⟩
    simp [hname] at hc
  | some cname =>
    -- an ancestor of a role with the class has the class as well
    have hclosed : ∀ s t, t ∈ (hierarchy rlist).al s → (s, cls) ∈ lists.authorize →
        (t, cls) ∈ lists.authorize := by
      intro s t hst hsc
      obtain ⟨hc, r, hr, hsr⟩ := (h.authorize s cls).1 hsc
      refine (h.authorize t cls).2 ⟨hc, r, hr, hs.mem_al_iff.2 ?_⟩
      exact (hs.mem_al_iff.1 hsr).trans (hs.mem_al_iff.1 (mem_cons_of_mem _ hst))
    obtain ⟨hauth, harray⟩ := mem_propagate_iff cname (hbuilt role).nodup
      ((Above.pairwise hbuilt role).imp fun {s t} => hclosed s t)
    refine { authorize := fun s c => ?_, array := fun s => ?_ }
    · simp only [hauth, h.authorize]
      constructor
      · rintro (⟨hc, r, hr, hsr⟩ | ⟨rfl, hsr⟩)
        · exact ⟨hc, r, .inl hr, hsr⟩
        · exact ⟨by simp [hname], role, .inr ⟨rfl, rfl⟩, hsr⟩
      · rintro ⟨hc, r, hr | ⟨rfl, rfl⟩, hsr⟩
        · exact .inl ⟨hc, r, hr, hsr⟩
        · exact .inr ⟨rfl, hsr⟩
    · obtain ⟨l, hn, hl, hmem⟩ := h.array s
      simp only [harray, hauth, hl]
      split_ifs with hnew
      · refine ⟨l ++ [cls], ?_, by simp [hname], fun c => ?_⟩
        · rw [nodup_append]
          refine ⟨hn, nodup_singleton cls, fun x hx y hy => ?_⟩
          obtain rfl := mem_singleton.1 hy
          rintro rfl
          exact hnew.2 ((hmem x).1 hx)
        · simp [hmem, hnew.1]
      · refine ⟨l, hn, by simp, fun c => ⟨fun hc => .inl ((hmem c).1 hc), ?_⟩⟩
        rintro (hc | ⟨rfl, hsr⟩)
        · exact (hmem c).2 hc
        · exact (hmem c).2 (not_not.1 fun hnot => hnew ⟨hsr, hnot⟩)

lemma Given.addClasses (hs : RoleForest rlist) (role : DbObject) (l : List DbObject)
    (h : lists.Given cnames (hierarchy rlist).al done) :
    (l.foldl (ClassLists.addClass cnames (hierarchy rlist).al role) lists).Given cnames
      (hierarchy rlist).al fun r c => done r c ∨ (r = role ∧ c ∈ l) := by
  induction l generalizing lists done with
  | nil => exact h.congr (by simp)
  | cons cls l ih =>
    refine (ih (h.addClass hs role cls)).congr fun r c => ?_
    simp only [mem_cons]
    tauto

end ClassLists

lemma RoleForest.classLists_given (cnames : DbObject → Option CString) (hs : RoleForest rlist)
    (op : Op) :
    (classLists cnames (hierarchy rlist).al rlist op).Given cnames (hierarchy rlist).al
      fun r c => ∃ role ∈ rlist, role.uuid = r ∧ c ∈ role.classes op := by
  have hrun : ∀ (l : List Role) {done : DbObject → DbObject → Prop} {lists : ClassLists},
      lists.Given cnames (hierarchy rlist).al done →
      (l.foldl (fun lists role => (role.classes op).foldl
        (ClassLists.addClass cnames (hierarchy rlist).al role.uuid) lists) lists).Given cnames
          (hierarchy rlist).al
          fun r c => done r c ∨ ∃ role ∈ l, role.uuid = r ∧ c ∈ role.classes op := by
    intro l
    induction l with
    | nil => exact fun h => h.congr (by simp)
    | cons role l ih =>
      intro done lists h
      refine (ih (h.addClasses hs role.uuid (role.classes op))).congr fun r c => ?_
      simp only [exists_mem_cons_iff, or_assoc, eq_comm]
  have hnil : (ClassLists.mk (fun _ => []) []).Given cnames (hierarchy rlist).al
      fun _ _ => False := { authorize := by simp, array := fun _ => ⟨[], by simp⟩ }
  exact (hrun rlist hnil).congr (by simp)

/-- The arrays of classes hold what a role or a role below it lists. -/
theorem RoleForest.mem_classLists_iff {cnames : DbObject → Option CString} (hs : RoleForest rlist)
    (op : Op) (r : DbObject) (cls : CString) :
    cls ∈ (classLists cnames (hierarchy rlist).al rlist op).array r ↔
      Lists cnames rlist r cls op := by
  have h := hs.classLists_given cnames op
  obtain ⟨l, -, hl, hmem⟩ := h.array r
  rw [hl, mem_filterMap]
  simp only [hmem, h.authorize, hs.mem_al_iff]
  constructor
  · rintro ⟨c, ⟨-, _, ⟨sub, hsub, rfl, hcls⟩, hcov⟩, hc⟩
    exact ⟨sub, hsub, hcov, c, hcls, hc⟩
  · rintro ⟨sub, hsub, hcov, c, hcls, hc⟩
    exact ⟨c, ⟨by simp [hc], sub.uuid, ⟨sub, hsub, rfl, hcls⟩, hcov⟩, hc⟩

/-! ## The tables -/

structure RoleTables.Right (cnames : DbObject → Option CString) (rlist : List Role)
    (tables : RoleTables) : Prop where
  roleUuid : ∀ name r, tables.roleUuid name = some r ↔
    ∃ role ∈ rlist, role.roleName = name ∧ role.uuid = r
  subroles : ∀ r entry, tables.entry r = some entry →
    ∀ s, s ∈ entry.subroles ↔ Covers rlist r s
  classes : ∀ r entry, tables.entry r = some entry →
    ∀ op cls, cls ∈ entry.classes op ↔ Lists cnames rlist r cls op

lemma foldl_roleUuid_iff (l : List Role) (hn : (l.map Role.roleName).Nodup)
    (t : CString → Option DbObject) (name : CString) (r : DbObject) :
    l.foldl (fun (t : CString → Option DbObject) r =>
        Function.update t r.roleName (some r.uuid)) t name = some r ↔
      (∃ role ∈ l, role.roleName = name ∧ role.uuid = r) ∨
        (name ∉ l.map Role.roleName ∧ t name = some r) := by
  induction l generalizing t with
  | nil => simp
  | cons role l ih =>
    obtain ⟨hrole, hn⟩ := nodup_cons.1 hn
    rw [foldl_cons, ih hn]
    by_cases hname : name = role.roleName
    · subst hname
      have hno : ¬ ∃ x ∈ l, x.roleName = role.roleName ∧ x.uuid = r := by
        rintro ⟨x, hx, hxn, -⟩
        exact hrole (mem_map.2 ⟨x, hx, hxn⟩)
      simp [hno, hrole]
    · simp [hname, Ne.symm hname]

lemma SoundRoles.unameitReloadRoles_right (cnames : DbObject → Option CString)
    (hs : SoundRoles rlist) : (unameitReloadRoles cnames rlist).Right cnames rlist := by
  have hentry : ∀ r entry, (unameitReloadRoles cnames rlist).entry r = some entry →
      entry = { subroles := r :: (hierarchy rlist).dl r,
                classes := fun op =>
                  (classLists cnames (hierarchy rlist).al rlist op).array r } := by
    intro r entry h
    simp only [unameitReloadRoles] at h
    split_ifs at h with hr
    exact (Option.some.inj h).symm
  refine { roleUuid := fun name r => ?_, subroles := ?_, classes := ?_ }
  · simp only [unameitReloadRoles]
    rw [foldl_roleUuid_iff rlist hs.names]
    simp
  · intro r entry h s
    rw [hentry r entry h]
    exact hs.forest.mem_subroles_iff
  · intro r entry h op cls
    rw [hentry r entry h]
    exact hs.forest.mem_classLists_iff op r cls

/-- **The role hierarchy.**  Whatever the order of the roles, the list of a role has its ancestors
from the nearest to the farthest; its subroles are the role and its descendants, each once; and for
each operation its classes are the known ones that it or a descendant lists, each once. -/
theorem unameitReloadRoles_exact (cnames : DbObject → Option CString) {rlist : List Role}
    (hs : RoleForest rlist) {role : Role} (hrole : role ∈ rlist) :
    Above (parentRole rlist) role.uuid ((hierarchy rlist).al role.uuid) ∧
    ∃ entry, (unameitReloadRoles cnames rlist).entry role.uuid = some entry ∧
      entry.subroles.Nodup ∧ (∀ s, s ∈ entry.subroles ↔ Covers rlist role.uuid s) ∧
      ∀ op, ∃ l : List DbObject, l.Nodup ∧ entry.classes op = l.filterMap cnames ∧
        ∀ c, c ∈ l ↔ (cnames c).isSome ∧
          ∃ sub ∈ rlist, Covers rlist role.uuid sub.uuid ∧ c ∈ sub.classes op := by
  have hbuilt := hs.hierarchy_built
  refine ⟨hbuilt.al role.uuid, _, if_pos (mem_map_of_mem hrole), ?_,
    fun s => hs.mem_subroles_iff, fun op => ?_⟩
  · -- a role is not below itself
    refine nodup_cons.2 ⟨fun hself => ?_, (hbuilt.once role.uuid).2⟩
    exact (nodup_cons.1 (hbuilt.al role.uuid).nodup).1 ((hbuilt.dl _ _).1 hself)
  · have hgiven := hs.classLists_given cnames op
    obtain ⟨l, hn, hl, hmem⟩ := hgiven.array role.uuid
    refine ⟨l, hn, hl, fun c => ?_⟩
    rw [hmem, hgiven.authorize]
    simp only [hs.mem_al_iff]
    refine and_congr_right fun _ => ⟨?_, ?_⟩
    · rintro ⟨_, ⟨sub, hsub, rfl, hc⟩, hcov⟩
      exact ⟨sub, hsub, hcov, hc⟩
    · rintro ⟨sub, hsub, hcov, hc⟩
      exact ⟨sub.uuid, ⟨sub, hsub, rfl, hc⟩, hcov⟩

def lateOwner : List Role :=
  [⟨1, ['a'], some 2, fun _ => [7]⟩, ⟨2, ['b'], none, fun _ => [8, 7]⟩]

theorem unameitReloadRoles_exact_late :
    Above (parentRole lateOwner) 1 ((hierarchy lateOwner).al 1) ∧
      (hierarchy lateOwner).al 1 = [2] := by
  have hforest : RoleForest lateOwner :=
    ⟨by decide, by decide, fun o => 2 - o, by decide⟩
  have hfirst : (⟨1, ['a'], some 2, fun _ => [7]⟩ : Role) ∈ lateOwner := mem_cons_self
  exact ⟨(unameitReloadRoles_exact (fun c => some [Char.ofNat c]) hforest hfirst).1, by decide⟩

end Auth
end Unameit
