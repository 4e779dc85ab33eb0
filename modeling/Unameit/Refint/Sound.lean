import Unameit.Refint.Store

/-!
# Refint — relations mirror the attribute values

A database is *sound* when the relation objects stand for exactly the pointers in the attribute
values of the undeleted items (`Items.mirror`).  The system calls that store attribute values, that
is `Udb_Create`, `Udb_Update` and `Udb_Undelete`, first write the values and then edit the
relations; `udbUpdateRelations_spec` says that the edits catch up with the values, and what they
add to the table of loop checks.
-/

namespace Unameit
namespace Refint

open List

variable {S : Schema} {a : CString} {l o m : DbObject} {R : Relations} {Q P : Set Triple}
  {table : List (CString × List DbObject)} {input v : List DbObject} {σ : State}

open Items

def Schema.action (S : Schema) (I : Items) (a : CString) (l : DbObject) : Action :=
  S.relaction (I.cls l) a

/-- The pointers in the attribute values of the undeleted items. -/
def Items.mirror (I : Items) : Set Triple :=
  {t | I.Alive t.2.1 ∧ t.2.2 ∈ I.value t.2.1 t.1}

/-- A loop check that is due starts at this pointer, provided that loops are to be detected: from
its target for a scalar attribute, from its source otherwise. -/
def Covered (S : Schema) (I : Items) (loops : List (CString × DbObject)) (a : CString)
    (l o : DbObject) : Prop :=
  match S.kind a with
  | .scalar => S.detectLoops (I.cls o) a = true → (a, o) ∈ loops
  | .vector => S.detectLoops (I.cls l) a = true → (a, l) ∈ loops

lemma Covered.mono {I : Items} {loops loops' : List (CString × DbObject)}
    (h : Covered S I loops a l o) (hsub : ∀ e ∈ loops, e ∈ loops') : Covered S I loops' a l o := by
  unfold Covered at h ⊢
  cases hkind : S.kind a with
  | scalar =>
    rw [hkind] at h
    exact fun hd => hsub _ (h hd)
  | vector =>
    rw [hkind] at h
    exact fun hd => hsub _ (h hd)

/-! ## Edits of the relations of one item -/

structure Related (S : Schema) (σ τ : State) (l : DbObject) (newObject dontLoopcheck : Bool)
    (P Q : Set Triple) : Prop where
  items : τ.items = σ.items
  refTable : τ.refTable = σ.refTable
  represents : Represents (S.action σ.items) τ.relations Q
  grows : ∀ e ∈ σ.loopTable, e ∈ τ.loopTable
  covered : newObject = false → dontLoopcheck = false → ∀ {a o}, (a, l, o) ∈ Q →
    (a, l, o) ∉ P → Covered S σ.items τ.loopTable a l o
  origin : ∀ e ∈ τ.loopTable, e ∈ σ.loopTable ∨ e.2 ∈ σ.items.objects
  quiet : dontLoopcheck = true → τ.loopTable = σ.loopTable

variable {newObject dontLoopcheck : Bool}

namespace Related

variable {τ υ : State} {T : Set Triple}

lemma refl (h : Represents (S.action σ.items) σ.relations P) :
    Related S σ σ l newObject dontLoopcheck P P :=
  { items := rfl
    refTable := rfl
    represents := h
    grows := fun _ he => he
    covered := fun _ _ _ _ hQ hP => absurd hQ hP
    origin := fun _ he => .inl he
    quiet := fun _ => rfl }

lemma trans (h : Related S σ τ l newObject dontLoopcheck P Q)
    (h' : Related S τ υ l newObject dontLoopcheck Q T) :
    Related S σ υ l newObject dontLoopcheck P T :=
  { items := h'.items.trans h.items
    refTable := h'.refTable.trans h.refTable
    represents := h.items ▸ h'.represents
    grows := fun e he => h'.grows e (h.grows e he)
    covered := by
      intro hnew hcheck a o hT hP
      by_cases hQ : (a, l, o) ∈ Q
      · exact (h.covered hnew hcheck hQ hP).mono h'.grows
      · exact h.items ▸ h'.covered hnew hcheck hT hQ
    origin := by
      intro e he
      rcases h'.origin e he with he | he
      · exact h.origin e he
      · exact .inr (h.items ▸ he)
    quiet := fun hd => (h'.quiet hd).trans (h.quiet hd) }

end Related

section Relate

lemma mem_addLoopCheck {e : CString × DbObject} :
    e ∈ (addLoopCheck σ o a).loopTable ↔ e = (a, o) ∨ e ∈ σ.loopTable := by
  unfold addLoopCheck
  by_cases h : (a, o) ∈ σ.loopTable
  · simp only [h, if_true]
    exact ⟨.inr, fun he => he.elim (fun he => he ▸ h) id⟩
  · simp [h]

/-- A check that is wanted and switched on is in the table afterwards; nothing else changes. -/
theorem Related.check (hrep : Represents (S.action σ.items) R Q) (ho : o ∈ σ.items.objects)
    (hdont : dontLoopcheck = false) (hcover : ∀ {b x}, (b, l, x) ∈ Q → (b, l, x) ∉ P →
      ∀ loops, (S.detectLoops (σ.items.cls o) a = true → (a, o) ∈ loops) →
        Covered S σ.items loops b l x) :
    Related S σ (maybeAddLoopCheck S { σ with relations := R } o a) l newObject dontLoopcheck
      P Q := by
  have hloops : ∀ e, e ∈ (maybeAddLoopCheck S { σ with relations := R } o a).loopTable ↔
      S.detectLoops (σ.items.cls o) a = true ∧ e = (a, o) ∨ e ∈ σ.loopTable := by
    intro e
    unfold maybeAddLoopCheck
    by_cases hd : S.detectLoops (σ.items.cls o) a = true
    · simp [hd, mem_addLoopCheck]
    · simp [hd]
  have hfields : ∀ τ, τ = maybeAddLoopCheck S { σ with relations := R } o a →
      τ.items = σ.items ∧ τ.refTable = σ.refTable ∧ τ.relations = R := by
    rintro τ rfl
    unfold maybeAddLoopCheck addLoopCheck
    split_ifs <;> exact ⟨rfl, rfl, rfl⟩
  obtain ⟨hitems, href, hrel⟩ := hfields _ rfl
  exact
    { items := hitems
      refTable := href
      represents := by rw [hrel]; exact hrep
      grows := fun e he => (hloops e).2 (.inr he)
      covered := fun _ _ _ _ hQ hP =>
        hcover hQ hP _ fun hd => (hloops _).2 (.inl ⟨hd, rfl⟩)
      origin := by
        intro e he
        rcases (hloops e).1 he with ⟨_, rfl⟩ | he
        · exact .inr ho
        · exact .inl he
      quiet := fun hd => by
        rw [hdont] at hd
        cases hd }

lemma Related.unchecked (hrep : Represents (S.action σ.items) R Q)
    (hcover : newObject = false → dontLoopcheck = false → ∀ {b x}, (b, l, x) ∈ Q →
      (b, l, x) ∈ P) : Related S σ { σ with relations := R } l newObject dontLoopcheck P Q :=
  { items := rfl
    refTable := rfl
    represents := hrep
    grows := fun _ he => he
    covered := fun hnew hdont _ _ hQ hP => absurd (hcover hnew hdont hQ) hP
    origin := fun _ he => .inl he
    quiet := fun _ => rfl }

lemma updateScalarRelation_spec {rhs : Option DbObject} (dontLoopcheck : Bool)
    (hkind : S.kind a = .scalar) (h : Represents (S.action σ.items) σ.relations P)
    (hone : ∀ {o o'}, (a, l, o) ∈ P → (a, l, o') ∈ P → o = o')
    (hnew : newObject = true → ∀ o, (a, l, o) ∉ P) (hrhs : ∀ o ∈ rhs, o ∈ σ.items.objects) :
    ∃ τ, updateScalarRelation S σ l a rhs newObject dontLoopcheck = .ok τ ∧
      Related S σ τ l newObject dontLoopcheck P (replace P a l rhs.toList) := by
  obtain ⟨R, hR, hrep⟩ := h.relateScalar rhs hone hnew
  have hother : ∀ {b x}, (b, l, x) ∈ replace P a l rhs.toList → (b, l, x) ∉ P →
      b = a ∧ rhs = some x := by
    intro b x hQ hP
    rw [mem_replace] at hQ
    split_ifs at hQ with hba
    · exact ⟨hba.1, by simpa using hQ⟩
    · exact absurd hQ hP
  unfold updateScalarRelation
  rw [show S.relaction (σ.items.cls l) a = S.action σ.items a l from rfl, hR]
  cases rhs with
  | none =>
    refine ⟨_, rfl, Related.unchecked hrep ?_⟩
    intro _ _ b x hQ
    by_contra hP
    cases (hother hQ hP).2
  | some o =>
    by_cases hcheck : newObject = false ∧ dontLoopcheck = false
    · refine ⟨maybeAddLoopCheck S { σ with relations := R } o a,
        by simp only [hcheck, and_self, if_true], Related.check hrep (hrhs o rfl) hcheck.2 ?_⟩
      intro b x hQ hP loops hloops
      obtain ⟨rfl, hx⟩ := hother hQ hP
      obtain rfl := Option.some.inj hx
      unfold Covered
      rw [hkind]
      exact hloops
    · refine ⟨_, by simp only [hcheck, if_false], Related.unchecked hrep ?_⟩
      intro hn hd
      exact absurd ⟨hn, hd⟩ hcheck

lemma updateVectorRelation_spec {rhs : List DbObject} (dontLoopcheck : Bool)
    (hkind : S.kind a = .vector) (h : Represents (S.action σ.items) σ.relations P)
    (hnew : newObject = true → ∀ o, (a, l, o) ∉ P) (hl : l ∈ σ.items.objects) :
    ∃ τ, updateVectorRelation S σ l a rhs newObject dontLoopcheck = .ok τ ∧
      Related S σ τ l newObject dontLoopcheck P (replace P a l rhs) := by
  obtain ⟨R, table, hR, hrep, htable⟩ := h.relateVector rhs hnew
  have hother : ∀ {b x}, (b, l, x) ∈ replace P a l rhs → (b, l, x) ∉ P →
      b = a ∧ x ∈ table := by
    intro b x hQ hP
    rw [mem_replace] at hQ
    split_ifs at hQ with hba
    · exact ⟨hba.1, (htable x).2 ⟨hQ, hba.1 ▸ hP⟩⟩
    · exact absurd hQ hP
  unfold updateVectorRelation
  rw [show S.relaction (σ.items.cls l) a = S.action σ.items a l from rfl, hR]
  by_cases hcheck : table ≠ [] ∧ newObject = false ∧ dontLoopcheck = false
  · refine ⟨maybeAddLoopCheck S { σ with relations := R } l a,
      by simp only [hcheck, ne_eq, not_false_eq_true, and_self, if_true], Related.check hrep hl hcheck.2.2 ?_⟩
    intro b x hQ hP loops hloops
    obtain ⟨rfl, _⟩ := hother hQ hP
    unfold Covered
    rw [hkind]
    exact hloops
  · refine ⟨_, by simp only [hcheck, if_false], Related.unchecked hrep ?_⟩
    intro hn hd b x hQ
    by_contra hP
    exact hcheck ⟨ne_nil_of_mem (hother hQ hP).2, hn, hd⟩

lemma relateValue_spec (dontLoopcheck : Bool) (h : Represents (S.action σ.items) σ.relations P)
    (hlen : S.kind a = .scalar → v.length ≤ 1)
    (hone : S.kind a = .scalar → ∀ {o o'}, (a, l, o) ∈ P → (a, l, o') ∈ P → o = o')
    (hnew : newObject = true → ∀ o, (a, l, o) ∉ P) (hl : l ∈ σ.items.objects)
    (hv : ∀ o ∈ v, o ∈ σ.items.objects) :
    ∃ τ, relateValue S σ l a v newObject dontLoopcheck = .ok τ ∧
      Related S σ τ l newObject dontLoopcheck P (replace P a l v) := by
  unfold relateValue
  cases hkind : S.kind a with
  | scalar =>
    have hhead : v.head?.toList = v := by
      cases v with
      | nil => rfl
      | cons o rest =>
        have hrest : rest = [] := by simpa using hlen hkind
        rw [hrest]
        rfl
    have hmem : ∀ o ∈ v.head?, o ∈ σ.items.objects := fun o ho => hv o (mem_of_mem_head? ho)
    obtain ⟨τ, hτ, hrel⟩ := updateScalarRelation_spec dontLoopcheck hkind h
      (hone hkind) hnew hmem
    exact ⟨τ, hτ, hhead ▸ hrel⟩
  | vector => exact updateVectorRelation_spec dontLoopcheck hkind h hnew hl

end Relate

/-! ## The attribute values of one call -/

def replaceAll (P : Set Triple) (l : DbObject) : List (CString × List DbObject) → Set Triple
  | [] => P
  | (a, v) :: rest => replaceAll (replace P a l v) l rest

lemma mem_replaceAll (hnodup : (table.map Prod.fst).Nodup) :
    (a, m, o) ∈ replaceAll P l table ↔
      if m = l ∧ a ∈ table.map Prod.fst then o ∈ (table.lookup a).getD [] else (a, m, o) ∈ P := by
  induction table generalizing P with
  | nil => simp [replaceAll]
  | cons entry rest ih =>
    obtain ⟨b, v⟩ := entry
    obtain ⟨hnotin, hrest⟩ := nodup_cons.1 hnodup
    rw [replaceAll, ih hrest, mem_replace]
    by_cases hm : m = l
    · by_cases hab : a = b
      · subst hab
        rw [if_neg fun hmem => hnotin hmem.2]
        simp
      · have hbeq : (a == b) = false := by simpa using hab
        simp only [map_cons, mem_cons, hab, false_or, lookup_cons, hbeq, false_and,
          if_false]
    · simp [hm]

structure Scanned (S : Schema) (I : Items) (cname : CString)
    (table : List (CString × List DbObject)) : Prop where
  nodup : (table.map Prod.fst).Nodup
  known : ∀ e ∈ table, e.1 ∈ S.relattributes cname
  scalar : ∀ e ∈ table, S.kind e.1 = .scalar → e.2.length ≤ 1
  alive : ∀ e ∈ table, ∀ o ∈ e.2, I.Alive o

variable {I : Items}

section Scan

variable {uuid : DbObject} {cname : CString}

lemma scanElements_ok (h : scanElements S I uuid cname a input = .ok ()) :
    ∀ o ∈ input, I.Alive o := by
  induction input with
  | nil => simp
  | cons o rest ih =>
    unfold scanElements at h
    cases hscan : scanPointer S I uuid cname a o with
    | error e => simp [hscan] at h
    | ok u =>
      have halive : I.Alive o := by
        by_contra hdead
        simp [scanPointer, hdead] at hscan
      simp only [hscan] at h
      exact forall_mem_cons.2 ⟨halive, ih h⟩

lemma scanValue_ok (h : scanValue S I uuid cname a input = .ok ()) :
    (S.kind a = .scalar → input.length ≤ 1) ∧ ∀ o ∈ input, I.Alive o := by
  unfold scanValue at h
  split_ifs at h with hlong
  exact ⟨fun hk => not_lt.1 fun hlt => hlong ⟨hk, hlt⟩, scanElements_ok h⟩

/-- An accepted table has the values of all arguments. -/
theorem setAttributes_spec {args result : List (CString × List DbObject)}
    (h : setAttributes S I uuid cname table args = .ok result) (htable : Scanned S I cname table) :
    Scanned S I cname result ∧
      (∀ b, b ∈ table.map Prod.fst ∨ b ∈ args.map Prod.fst → b ∈ result.map Prod.fst) := by
  induction args generalizing table with
  | nil =>
    obtain rfl : table = result := by simpa [setAttributes] using h
    exact ⟨htable, fun b hb => by simpa using hb⟩
  | cons arg rest ih =>
    obtain ⟨b, input⟩ := arg
    simp only [setAttributes] at h
    split_ifs at h with hknown
    cases hscan : scanValue S I uuid cname b input with
    | error e => simp [hscan] at h
    | ok u =>
      simp only [hscan] at h
      obtain ⟨hlen, halive⟩ := scanValue_ok hscan
      have hkept : ∀ e ∈ table.filter (fun entry => entry.1 ≠ b), e ∈ table :=
        fun e he => mem_of_mem_filter he
      have hstep : Scanned S I cname ((b, input) :: table.filter fun entry => entry.1 ≠ b) :=
        { nodup := by
            refine nodup_cons.2 ⟨?_, (htable.nodup.sublist ?_)⟩
            · intro hmem
              obtain ⟨e, he, heb⟩ := mem_map.1 hmem
              simpa [heb] using (mem_filter.1 he).2
            · exact List.Sublist.map _ filter_sublist
          known := forall_mem_cons.2
            ⟨hknown, fun e he => htable.known e (hkept e he)⟩
          scalar := forall_mem_cons.2 ⟨hlen, fun e he => htable.scalar e (hkept e he)⟩
          alive := forall_mem_cons.2 ⟨halive, fun e he => htable.alive e (hkept e he)⟩ }
      obtain ⟨hres, hkeys⟩ := ih h hstep
      refine ⟨hres, ?_⟩
      intro c hc
      by_cases hcb : c = b
      · exact hkeys c (.inl (by simp [hcb]))
      · refine hkeys c ?_
        rcases hc with hc | hc
        · obtain ⟨e, he, rfl⟩ := mem_map.1 hc
          exact .inl (mem_map.2 ⟨e, mem_cons_of_mem _ (by simp [he, hcb]), rfl⟩)
        · rcases mem_cons.1 hc with rfl | hc
          · exact absurd rfl hcb
          · exact .inr hc

lemma Scanned.nil : Scanned S I cname [] :=
  { nodup := nodup_nil
    known := by simp
    scalar := by simp
    alive := by simp }

lemma lookup_mem (h : table.lookup a = some v) : (a, v) ∈ table := by
  obtain ⟨before, after, rfl, -⟩ := lookup_eq_some_iff.1 h
  exact mem_append_cons_self

lemma lookup_eq_none_iff_keys : table.lookup a = none ↔ a ∉ table.map Prod.fst := by
  rw [lookup_eq_none_iff, mem_map]
  grind

end Scan

lemma eq_of_mem_of_length {o' : DbObject} (hlen : v.length ≤ 1) (ho : o ∈ v) (ho' : o' ∈ v) :
    o = o' := by
  cases v with
  | nil => cases ho
  | cons x rest =>
    obtain rfl : rest = [] := by simpa using hlen
    exact (mem_singleton.1 ho).trans (mem_singleton.1 ho').symm

/-- `Udb_Update_Relations` replaces the triples of the item for every attribute in the table. -/
theorem udbUpdateRelations_spec (newObject dontLoopcheck : Bool)
    (h : Represents (S.action σ.items) σ.relations P) (hnodup : (table.map Prod.fst).Nodup)
    (hlen : ∀ e ∈ table, S.kind e.1 = .scalar → e.2.length ≤ 1)
    (hv : ∀ e ∈ table, ∀ o ∈ e.2, o ∈ σ.items.objects)
    (hone : ∀ {a o o'}, S.kind a = .scalar → (a, l, o) ∈ P → (a, l, o') ∈ P → o = o')
    (hnew : newObject = true → ∀ {a o}, a ∈ table.map Prod.fst → (a, l, o) ∉ P)
    (hl : l ∈ σ.items.objects) :
    ∃ τ, udbUpdateRelations S l newObject dontLoopcheck σ table = .ok τ ∧
      Related S σ τ l newObject dontLoopcheck P (replaceAll P l table) := by
  induction table generalizing σ P with
  | nil => exact ⟨σ, rfl, Related.refl h⟩
  | cons entry rest ih =>
    obtain ⟨a, v⟩ := entry
    obtain ⟨hnotin, hrest⟩ := nodup_cons.1 hnodup
    obtain ⟨τ, hτ, hrel⟩ := relateValue_spec dontLoopcheck h
      (hlen (a, v) mem_cons_self) (fun hk => hone hk)
      (fun hn o => hnew hn (by simp)) hl (hv (a, v) mem_cons_self)
    -- The values of the attributes that are still to come have not changed.
    have hsame : ∀ {b o}, b ≠ a → ((b, l, o) ∈ replace P a l v ↔ (b, l, o) ∈ P) := by
      intro b o hb
      rw [mem_replace, if_neg fun hba => hb hba.1]
    have hone' : ∀ {b o o'}, S.kind b = .scalar → (b, l, o) ∈ replace P a l v →
        (b, l, o') ∈ replace P a l v → o = o' := by
      intro b o o' hk ho ho'
      by_cases hb : b = a
      · subst hb
        simp only [mem_replace, and_self, if_true] at ho ho'
        exact eq_of_mem_of_length (hlen (b, v) mem_cons_self hk) ho ho'
      · exact hone hk ((hsame hb).1 ho) ((hsame hb).1 ho')
    obtain ⟨υ, hυ, hrel'⟩ := ih (σ := τ) (by rw [hrel.items]; exact hrel.represents) hrest
      (fun e he => hlen e (mem_cons_of_mem _ he))
      (fun e he => by rw [hrel.items]; exact hv e (mem_cons_of_mem _ he)) hone'
      (fun hn b o hb => by
        have hba : b ≠ a := fun he => hnotin (he ▸ hb)
        rw [hsame hba]
        exact hnew hn (mem_cons_of_mem _ hb))
      (by rw [hrel.items]; exact hl)
    refine ⟨υ, ?_, hrel.trans hrel'⟩
    unfold udbUpdateRelations
    rw [hτ]
    exact hυ

/-! ## Sound databases -/

/-- The attribute values fit the schema, and all items that are mentioned exist. -/
structure Items.Typed (S : Schema) (I : Items) : Prop where
  known : ∀ {l a o}, o ∈ I.value l a → a ∈ S.relattributes (I.cls l)
  scalar : ∀ {l a}, S.kind a = .scalar → (I.value l a).length ≤ 1
  objects : ∀ {l a o}, o ∈ I.value l a → o ∈ I.objects
  gone : ∀ {o}, I.deleted o = true → o ∈ I.objects

/-- The relations mirror the attribute values of the undeleted items. -/
structure Sound (S : Schema) (σ : State) : Prop where
  relations : Represents (S.action σ.items) σ.relations σ.items.mirror
  typed : σ.items.Typed S
  starts : ∀ e ∈ σ.loopTable, e.2 ∈ σ.items.objects

lemma Sound.empty : Sound S State.empty :=
  { relations := Represents.empty.mono fun t => by simp [mirror, Items.Alive, State.empty]
    typed :=
      { known := fun ho => by cases ho
        scalar := fun _ => Nat.zero_le _
        objects := fun ho => by cases ho
        gone := fun ho => by cases ho }
    starts := fun e he => by cases he }

lemma Sound.resetChecks (h : Sound S σ) : Sound S σ.resetChecks :=
  { relations := h.relations
    typed := h.typed
    starts := fun e he => by cases he }

section Store

variable {J : Items}

lemma Items.value_store_self :
    (I.store l table).value l a = (table.lookup a).getD (I.value l a) := by
  simp [store]

lemma Items.value_store_of_ne (hm : m ≠ l) : (I.store l table).value m = I.value m := by
  simp [store, hm]

lemma Items.Typed.store (h : J.Typed S) (hscan : Scanned S I (J.cls l) table)
    (hobjects : ∀ o, I.Alive o → o ∈ J.objects) : (J.store l table).Typed S := by
  -- A value of the item is one from the table, or the one it had.
  have hcases : ∀ a, (a, (J.store l table).value l a) ∈ table ∨
      (J.store l table).value l a = J.value l a := by
    intro a
    rw [value_store_self]
    cases hlook : table.lookup a with
    | none => exact .inr rfl
    | some v => exact .inl (lookup_mem hlook)
  refine
    { known := ?_
      scalar := ?_
      objects := ?_
      gone := h.gone }
  · intro m a o ho
    by_cases hm : m = l
    · subst hm
      rcases hcases a with htab | heq
      · exact hscan.known _ htab
      · exact h.known (heq ▸ ho)
    · rw [value_store_of_ne hm] at ho
      exact h.known ho
  · intro m a hk
    by_cases hm : m = l
    · subst hm
      rcases hcases a with htab | heq
      · exact hscan.scalar _ htab hk
      · rw [heq]
        exact h.scalar hk
    · rw [value_store_of_ne hm]
      exact h.scalar hk
  · intro m a o ho
    by_cases hm : m = l
    · subst hm
      rcases hcases a with htab | heq
      · exact hobjects o (hscan.alive _ htab o ho)
      · exact h.objects (heq ▸ ho)
    · rw [value_store_of_ne hm] at ho
      exact h.objects ho

end Store

/-- What a call does that stores attribute values of item `l`: `newObject` tells whether the item
was created or undeleted by it. -/
structure Saved (S : Schema) (σ τ : State) (l : DbObject) (newObject : Bool) : Prop where
  alive : τ.items.Alive l
  before : newObject = true ↔ ¬ σ.items.Alive l
  objects : ∀ m ∈ σ.items.objects, m ∈ τ.items.objects
  cls : ∀ m ∈ σ.items.objects, τ.items.cls m = σ.items.cls m
  alive_iff : ∀ m, m ≠ l → (τ.items.Alive m ↔ σ.items.Alive m)
  deleted : ∀ m, m ≠ l → τ.items.deleted m = σ.items.deleted m
  value : ∀ m, m ≠ l → τ.items.value m = σ.items.value m
  fresh : ∀ {a o}, o ∈ τ.items.value l a → (a, l, o) ∈ σ.items.mirror ∨ σ.items.Alive o
  refTable : τ.refTable = σ.refTable
  grows : ∀ e ∈ σ.loopTable, e ∈ τ.loopTable
  covered : newObject = false → ∀ {a o}, o ∈ τ.items.value l a → (a, l, o) ∉ σ.items.mirror →
    Covered S τ.items τ.loopTable a l o

/-- Values are stored for item `l`, which `J` has among the undeleted items, and then the relations
are updated.  Attributes that are not in the table must be mirrored already. -/
theorem Sound.save {J : Items} (newObject : Bool) (h : Sound S σ) (hJ : J.Typed S) (hl : J.Alive l)
    (hobjects : ∀ m ∈ σ.items.objects, m ∈ J.objects)
    (hcls : ∀ m ∈ σ.items.objects, J.cls m = σ.items.cls m)
    (halive : ∀ m, m ≠ l → (J.Alive m ↔ σ.items.Alive m))
    (hdeleted : ∀ m, m ≠ l → J.deleted m = σ.items.deleted m)
    (hvalue : ∀ m, m ≠ l → J.value m = σ.items.value m) (hscan : Scanned S σ.items (J.cls l) table)
    (hkeep : ∀ {a o}, a ∉ table.map Prod.fst →
      (o ∈ J.value l a ↔ (a, l, o) ∈ σ.items.mirror)) (hnew : newObject = true ↔ ¬ σ.items.Alive l) :
    ∃ τ, udbUpdateRelations S l newObject false { σ with items := J.store l table } table =
        .ok τ ∧ Sound S τ ∧ Saved S σ τ l newObject := by
  have hknown : ∀ o, σ.items.Alive o → o ∈ J.objects := fun o ho => hobjects o ho.1
  have htyped : (J.store l table).Typed S := hJ.store hscan hknown
  -- The old triples do not notice what happened to the items.
  have hrep : Represents (S.action (J.store l table)) σ.relations σ.items.mirror := by
    refine h.relations.congr_action ?_
    intro a m o hmem
    exact congrArg (fun c => S.relaction c a) (hcls m hmem.1.1)
  have hone : ∀ {a o o'}, S.kind a = .scalar → (a, l, o) ∈ σ.items.mirror →
      (a, l, o') ∈ σ.items.mirror → o = o' :=
    fun hk ho ho' => eq_of_mem_of_length (h.typed.scalar hk) ho.2 ho'.2
  obtain ⟨τ, hτ, hrel⟩ := udbUpdateRelations_spec (S := S) (σ := { σ with items := J.store l table })
    (P := σ.items.mirror) (l := l) newObject false hrep hscan.nodup hscan.scalar
    (fun e he o ho => hobjects o (hscan.alive e he o ho).1) hone
    (fun hn a o _ hmem => hnew.1 hn hmem.1) hl.1
  -- The triples after the edit are the pointers in the values.
  have hmirror : ∀ t, t ∈ (J.store l table).mirror ↔
      t ∈ replaceAll σ.items.mirror l table := by
    rintro ⟨a, m, o⟩
    rw [mem_replaceAll hscan.nodup]
    by_cases hm : m = l
    · subst hm
      have hstored : (a, m, o) ∈ (J.store m table).mirror ↔ o ∈ (J.store m table).value m a :=
        and_iff_right hl
      rw [hstored, value_store_self]
      by_cases ha : a ∈ table.map Prod.fst
      · rw [if_pos ⟨rfl, ha⟩]
        cases hlook : table.lookup a with
        | none => exact absurd ha (lookup_eq_none_iff_keys.1 hlook)
        | some v => rfl
      · rw [if_neg fun hmem => ha hmem.2, lookup_eq_none_iff_keys.2 ha]
        exact hkeep ha
    · rw [if_neg fun hmem => hm hmem.1]
      have hval : (J.store l table).value m = σ.items.value m :=
        (value_store_of_ne hm).trans (hvalue m hm)
      refine and_congr (halive m hm) ?_
      rw [hval]
  have hitems : τ.items = J.store l table := hrel.items
  have hcover := hrel.covered
  refine ⟨τ, hτ, ?_, ?_⟩
  · refine
      { relations := ?_
        typed := by rw [hitems]; exact htyped
        starts := ?_ }
    · rw [hitems]
      exact hrel.represents.mono hmirror
    · intro e he
      rw [hitems]
      rcases hrel.origin e he with he | he
      · exact hobjects _ (h.starts e he)
      · exact he
  · refine
      { alive := by rw [hitems]; exact hl
        before := hnew
        objects := by rw [hitems]; exact hobjects
        cls := by rw [hitems]; exact hcls
        alive_iff := by rw [hitems]; exact halive
        deleted := by rw [hitems]; exact hdeleted
        value := ?_
        fresh := ?_
        refTable := hrel.refTable
        grows := hrel.grows
        covered := ?_ }
    · intro m hm
      rw [hitems, value_store_of_ne hm, hvalue m hm]
    · intro a o ho
      rw [hitems, value_store_self] at ho
      cases hlook : table.lookup a with
      | none =>
        rw [hlook] at ho
        exact .inl ((hkeep (lookup_eq_none_iff_keys.1 hlook)).1 ho)
      | some v =>
        rw [hlook] at ho
        exact .inr (hscan.alive _ (lookup_mem hlook) o ho)
    · intro hn a o ho hnot
      rw [hitems] at ho ⊢
      exact hcover hn rfl ((hmirror (a, l, o)).1 ⟨hl, ho⟩) hnot

end Refint
end Unameit
