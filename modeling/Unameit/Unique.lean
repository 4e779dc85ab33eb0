import Mathlib.Logic.Relation
import Unameit.Inet.Basic
import Unameit.Lib.Pool

/-!
# Unique — uniqueness buckets and their checks at commit

A uniqueness rule gives an object up to four keys, one for each level of promotion of its owner.
For each key there is a *bucket* with three sets of members: strong, normal and weak.  Buckets are
updated at once, and checked at commit.  Which ones are checked is decided when a member is added
(`growCacheEntry`): `uniqueChecks_of_run` says that no collision escapes, whatever objects come and
go in a transaction and however buckets are recycled.
-/

namespace Unameit
namespace Unique

open Function (update update_self update_of_ne)
open Option

/-! ## The model -/

/-- The strength of a collision, other than `NO_COLLISION`. -/
inductive Strength
  | strong
  | normal
  | weak
  deriving DecidableEq, Repr

/-- What `Decode_Rule` takes from a uniqueness rule: the collision class and the strengths at the
levels local, cell, organization and global; `none` is `NO_COLLISION`. -/
structure Rule where
  collisionClass : CString
  strength : Fin 4 → Option Strength

/-- `UNAMEIT_COLLISION_RULE`. -/
abbrev Rules := CString → Option Rule

/-- A bucket: the number of an object of a collision class. -/
abbrev Bucket := CString × ℕ

/-- The buckets of all collision classes.  A bucket is in use when it has a key. -/
structure State where
  pool : CString → Pool
  key : Bucket → Option CString
  members : Bucket → Strength → List DbObject
  uniqTable : List Bucket

/-- The tables of an object: for each level the keys by the name of the rule. -/
abbrev Tables := Fin 4 → List (CString × CString)

/-- The entries of all tables, with their levels. -/
def Tables.entries (t : Tables) : List (Fin 4 × CString × CString) :=
  (List.finRange 4).flatMap fun i => (t i).map fun entry => (i, entry)

def udbAddUniqueCheck (σ : State) (b : Bucket) : State :=
  { σ with uniqTable := if b ∈ σ.uniqTable then σ.uniqTable else b :: σ.uniqTable }

def udbDropUniqueCheck (σ : State) (b : Bucket) : State :=
  { σ with uniqTable := σ.uniqTable.filter (· ≠ b) }

def findUnique (σ : State) (collisionClass key : CString) : Option Bucket :=
  ((List.range (σ.pool collisionClass).next).map fun n => (collisionClass, n)).find?
    fun b => σ.key b = some key

def State.setMembers (σ : State) (b : Bucket) (strength : Strength) (l : List DbObject) : State :=
  { σ with members := update σ.members b (update (σ.members b) strength l) }

def dropCollisionEntryIfEmpty (σ : State) (b : Bucket) : State :=
  if σ.members b .strong = [] ∧ σ.members b .normal = [] ∧ σ.members b .weak = [] then
    let σ := udbDropUniqueCheck σ b
    { σ with
      key := update σ.key b none
      pool := update σ.pool b.1 ((σ.pool b.1).give b.2) }
  else σ

def needsCheck (m : Strength → List DbObject) : Strength → Bool
  | .strong => true
  | .normal => m .normal ≠ [] ∨ m .strong ≠ []
  | .weak => m .strong ≠ []

def growCacheEntry (σ : State) (b : Bucket) (strength : Strength) (object : DbObject) : State :=
  let σ := if needsCheck (σ.members b) strength then udbAddUniqueCheck σ b else σ
  let col := σ.members b strength
  σ.setMembers b strength (if object ∈ col then col else col ++ [object])

def newCacheEntry (σ : State) (collisionClass key : CString) (strength : Strength)
    (object : DbObject) : State :=
  let (n, pool) := (σ.pool collisionClass).take
  let σ : State := { σ with
    pool := update σ.pool collisionClass pool
    key := update σ.key (collisionClass, n) (some key) }
  σ.setMembers (collisionClass, n) strength [object]

/-- One turn of the loop over the old tables: an entry that stays is dropped from the new tables,
and otherwise the object leaves its bucket. -/
def dropOldKey (rules : Rules) (object : DbObject) (acc : State × Option Tables)
    (entry : Fin 4 × CString × CString) : Option (State × Option Tables) := do
  let (σ, new) := acc
  let (i, rule, oldKey) := entry
  let r ← rules rule
  match new.bind fun t => (t i).lookup rule with
  | some newKey =>
    if newKey = oldKey then
      return (σ, new.map fun t => update t i ((t i).filter fun e => e.1 ≠ rule))
    else leave σ new r i oldKey
  | none => leave σ new r i oldKey
where
  leave (σ : State) (new : Option Tables) (r : Rule) (i : Fin 4) (oldKey : CString) :
      Option (State × Option Tables) := do
    let b ← findUnique σ r.collisionClass oldKey
    let strength ← r.strength i
    let col := (σ.members b strength).erase object
    let σ := σ.setMembers b strength col
    return (if col = [] then dropCollisionEntryIfEmpty σ b else σ, new)

def addNewKey (rules : Rules) (object : DbObject) (σ : State)
    (entry : Fin 4 × CString × CString) : Option State := do
  let (i, rule, newKey) := entry
  let r ← rules rule
  let strength ← r.strength i
  match findUnique σ r.collisionClass newKey with
  | none => return newCacheEntry σ r.collisionClass newKey strength object
  | some b => return growCacheEntry σ b strength object

/-- `Update_Uniqueness_Caches`; `none` when a check fails.  The deletions come before the additions,
and the new tables may lose entries on the way. -/
def updateUniquenessCaches (rules : Rules) (σ : State) (object : DbObject)
    (old new : Option Tables) : Option State := do
  let (σ, new) ← (old.elim [] Tables.entries).foldlM (dropOldKey rules object) (σ, new)
  (new.elim [] Tables.entries).foldlM (addNewKey rules object) σ

/-- The errors of `Udb_Do_Unique_Checks`, with the collision class and the members at fault. -/
inductive UniqError
  | edirectuniq (collisionClass : CString) (items : List DbObject)
  | eindiruniq (collisionClass : CString) (globals locals : List DbObject)
  deriving DecidableEq, Repr

def checkBucket (σ : State) (b : Bucket) : Option UniqError :=
  if (σ.members b .strong).length > 1 then some (.edirectuniq b.1 (σ.members b .strong))
  else if (σ.members b .normal).length > 1 then some (.edirectuniq b.1 (σ.members b .normal))
  else if (σ.members b .strong).length > 0 ∧ (σ.members b .normal).length > 0 then
    some (.eindiruniq b.1 (σ.members b .strong) (σ.members b .normal))
  else if (σ.members b .strong).length > 0 then
    if (σ.members b .weak).length > 0 then
      some (.eindiruniq b.1 (σ.members b .strong) (σ.members b .weak))
    else none
  else none

/-- The loop of `Udb_Do_Unique_Checks`: the first error, and the buckets that were not checked. -/
def checkBuckets (σ : State) : List Bucket → Option UniqError × List Bucket
  | [] => (none, [])
  | b :: rest =>
    match checkBucket σ b with
    | some error => (some error, rest)
    | none => checkBuckets σ rest

/-- `Udb_Do_Unique_Checks`; `TCL_OK` is `none`. -/
def udbDoUniqueChecks (σ : State) : Option UniqError × State :=
  let (result, rest) := checkBuckets σ σ.uniqTable
  (result, { σ with uniqTable := rest })

/-- What happens to an object in a transaction, with the tables of its keys before and after. -/
inductive Op
  | create (object : DbObject) (new : Tables)
  | update (object : DbObject) (old new : Tables)
  | delete (object : DbObject) (old : Tables)
  | undelete (object : DbObject) (new : Tables)

def step (rules : Rules) (σ : State) : Op → Option State
  | .create object new => updateUniquenessCaches rules σ object none (some new)
  | .update object old new => updateUniquenessCaches rules σ object (some old) (some new)
  | .delete object old => updateUniquenessCaches rules σ object (some old) none
  | .undelete object new => updateUniquenessCaches rules σ object none (some new)

abbrev Run (rules : Rules) : State → State → Prop :=
  Relation.ReflTransGen fun σ σ' => ∃ op, step rules σ op = some σ'

/-! ## Collisions -/

/-- At most one strong member, at most one normal member, and a strong member excludes the others. -/
def CollisionFree (m : Strength → List DbObject) : Prop :=
  (m .strong).length ≤ 1 ∧ (m .normal).length ≤ 1 ∧
    (0 < (m .strong).length → (m .normal).length = 0 ∧ (m .weak).length = 0)

variable {m : Strength → List DbObject} {σ : State} {b' : Bucket} {new : Option Tables}
  {entry : Fin 4 × CString × CString}

lemma CollisionFree.mono {m' : Strength → List DbObject} (h : CollisionFree m)
    (hle : ∀ s, (m' s).length ≤ (m s).length) : CollisionFree m' := by
  rcases h with ⟨hstrong, hnormal, hexcl⟩
  have hs := hle .strong
  have hn := hle .normal
  have hw := hle .weak
  refine ⟨by omega, by omega, fun hpos => ?_⟩
  omega

/-- A further member that needs no check causes no collision. -/
theorem CollisionFree.add_member (h : CollisionFree m) {s : Strength}
    (hneeds : needsCheck m s = false) {l : List DbObject} (hl : l.length ≤ (m s).length + 1) :
    CollisionFree (update m s l) := by
  rcases h with ⟨hstrong, hnormal, hexcl⟩
  cases s with
  | strong => cases hneeds
  | normal =>
    -- The first normal member of a bucket without a strong one.
    have hnil : m .normal = [] ∧ m .strong = [] := by simpa [needsCheck, not_or] using hneeds
    have hone : l.length ≤ 1 := by simpa [hnil.1] using hl
    exact ⟨by simp [hnil.2], by simpa using hone, by simp [hnil.2]⟩
  | weak =>
    -- Without a strong member the weak ones do not matter.
    have hnil : m .strong = [] := by simpa [needsCheck] using hneeds
    exact ⟨by simp [hnil], by simpa using hnormal, by simp [hnil]⟩

lemma checkBucket_eq_none {b : Bucket} : checkBucket σ b = none ↔ CollisionFree (σ.members b) := by
  unfold checkBucket CollisionFree
  constructor
  · intro h
    split at h
    · cases h
    · split at h
      · cases h
      · split at h
        · cases h
        · split at h
          · split at h
            · cases h
            · omega
          · omega
  · rintro ⟨hstrong, hnormal, hexcl⟩
    rw [if_neg (by omega), if_neg (by omega), if_neg (by omega)]
    split
    · rw [if_neg (by omega)]
    · rfl

lemma checkBuckets_eq_none {l : List Bucket} :
    (checkBuckets σ l).1 = none ↔ ∀ b ∈ l, CollisionFree (σ.members b) := by
  induction l with
  | nil => simp [checkBuckets]
  | cons b rest ih =>
    rw [checkBuckets]
    cases hb : checkBucket σ b with
    | none =>
      have hfree := checkBucket_eq_none.1 hb
      simp only [ih, List.mem_cons, forall_eq_or_imp]
      exact ⟨fun h => ⟨hfree, h⟩, And.right⟩
    | some error =>
      have hcol : ¬ CollisionFree (σ.members b) := by
        rw [← checkBucket_eq_none, hb]
        exact some_ne_none error
      simp only [List.mem_cons, forall_eq_or_imp]
      exact ⟨fun h => absurd h (some_ne_none error), fun h => absurd h.1 hcol⟩

/-! ## The invariant -/

/-- Every bucket with a collision is going to be checked, and the buckets that are not in use are
empty and not going to be checked. -/
structure Scheduled (σ : State) : Prop where
  pool : ∀ c, (σ.pool c).Sound fun n => σ.key (c, n) ≠ none
  blank : ∀ {b}, σ.key b = none → ∀ s, σ.members b s = []
  pending : ∀ {b}, ¬ CollisionFree (σ.members b) → b ∈ σ.uniqTable
  live : ∀ {b}, b ∈ σ.uniqTable → σ.key b ≠ none

/-- The state between transactions: nothing is left to check, and no bucket has a collision. -/
structure Committed (σ : State) : Prop where
  pool : ∀ c, (σ.pool c).Sound fun n => σ.key (c, n) ≠ none
  blank : ∀ {b}, σ.key b = none → ∀ s, σ.members b s = []
  free : ∀ b, σ.key b ≠ none → CollisionFree (σ.members b)
  checked : σ.uniqTable = []

section Steps

variable {rules : Rules} {σ σ' : State} {b : Bucket} {c k : CString} {s : Strength}
  {object : DbObject} {l : List DbObject}

lemma collisionFree_of_blank (h : ∀ s, σ.members b s = []) : CollisionFree (σ.members b) := by
  refine ⟨?_, ?_, ?_⟩ <;> simp [h]

lemma Committed.scheduled (h : Committed σ) : Scheduled σ :=
  { pool := h.pool
    blank := h.blank
    pending := fun {b} hcol => by
      refine absurd ?_ hcol
      by_cases hb : σ.key b = none
      · exact collisionFree_of_blank (h.blank hb)
      · exact h.free b hb
    live := fun hb => by
      rw [h.checked] at hb
      cases hb }

lemma key_of_findUnique (h : findUnique σ c k = some b) : σ.key b = some k := by
  have := List.find?_some h
  simpa using this

@[simp] lemma members_setMembers_self : (σ.setMembers b s l).members b = update (σ.members b) s l :=
  update_self _ _ _

lemma members_setMembers_of_ne (hb : b' ≠ b) : (σ.setMembers b s l).members b' = σ.members b' :=
  update_of_ne hb _ _

lemma mem_udbAddUniqueCheck :
    b' ∈ (udbAddUniqueCheck σ b).uniqTable ↔ b' = b ∨ b' ∈ σ.uniqTable := by
  unfold udbAddUniqueCheck
  by_cases hb : b ∈ σ.uniqTable
  · simp only [if_pos hb]
    constructor
    · exact .inr
    · rintro (rfl | h)
      · exact hb
      · exact h
  · simp [hb]

namespace Scheduled

section

variable (h : Scheduled σ) (hb : σ.key b ≠ none)

include h hb

lemma addCheck : Scheduled (udbAddUniqueCheck σ b) :=
  { pool := h.pool
    blank := h.blank
    pending := fun hcol => mem_udbAddUniqueCheck.2 (.inr (h.pending hcol))
    live := fun {b'} hb' => by
      rcases mem_udbAddUniqueCheck.1 hb' with rfl | hold
      · exact hb
      · exact h.live hold }

/-- Changing the members of a bucket in use, which is scheduled if they collide. -/
theorem setMembers (hpending : ¬ CollisionFree (update (σ.members b) s l) → b ∈ σ.uniqTable) :
    Scheduled (σ.setMembers b s l) := by
  refine
    { pool := h.pool
      blank := fun {b'} hb' => ?_
      pending := fun {b'} hcol => ?_
      live := h.live }
  · have hne : b' ≠ b := by
      rintro rfl
      exact hb hb'
    rw [members_setMembers_of_ne hne]
    exact h.blank hb'
  · by_cases hbb : b' = b
    · subst hbb
      rw [members_setMembers_self] at hcol
      exact hpending hcol
    · rw [members_setMembers_of_ne hbb] at hcol
      exact h.pending hcol

lemma dropEmpty : Scheduled (dropCollisionEntryIfEmpty σ b) := by
  unfold dropCollisionEntryIfEmpty
  split
  · rename_i hempty
    have hnil : ∀ s, σ.members b s = [] := by
      intro s
      cases s with
      | strong => exact hempty.1
      | normal => exact hempty.2.1
      | weak => exact hempty.2.2
    refine
      { pool := fun c => ?_
        blank := fun {b'} hb' => ?_
        pending := fun {b'} hcol => ?_
        live := fun {b'} hb' => ?_ }
    · show (update σ.pool b.1 _ c).Sound fun n => update σ.key b none (c, n) ≠ none
      by_cases hc : c = b.1
      · subst hc
        rw [update_self]
        refine ((h.pool b.1).give hb).congr fun n => ?_
        by_cases hn : n = b.2
        · subst hn
          simp
        · have hne : ((b.1, n) : Bucket) ≠ b := fun heq => hn (congrArg Prod.snd heq)
          rw [update_of_ne hne]
          simp [hn]
      · rw [update_of_ne hc]
        refine (h.pool c).congr fun n => ?_
        have hne : ((c, n) : Bucket) ≠ b := fun heq => hc (congrArg Prod.fst heq)
        rw [update_of_ne hne]
    · by_cases hbb : b' = b
      · subst hbb
        exact hnil
      · have hold : update σ.key b none b' = none := hb'
        rw [update_of_ne hbb] at hold
        exact h.blank hold
    · -- The table only loses `b`, which is empty.
      have hne : b' ≠ b := by
        rintro rfl
        exact hcol (collisionFree_of_blank hnil)
      exact List.mem_filter.2 ⟨h.pending hcol, by simpa using hne⟩
    · rcases List.mem_filter.1 hb' with ⟨hold, hne⟩
      have hne' : b' ≠ b := by simpa using hne
      show update σ.key b none b' ≠ none
      rw [update_of_ne hne']
      exact h.live hold
  · exact h

lemma leave (s : Strength) (object : DbObject) :
    Scheduled (σ.setMembers b s ((σ.members b s).erase object)) := by
  refine h.setMembers hb fun hcol => h.pending fun hfree => hcol (hfree.mono fun s' => ?_)
  by_cases hs : s' = s
  · subst hs
    rw [update_self]
    exact List.length_erase_le
  · rw [update_of_ne hs]

lemma grow (s : Strength) (object : DbObject) : Scheduled (growCacheEntry σ b s object) := by
  unfold growCacheEntry
  by_cases hneeds : needsCheck (σ.members b) s = true
  · rw [if_pos hneeds]
    exact (h.addCheck hb).setMembers hb fun _ => mem_udbAddUniqueCheck.2 (.inl rfl)
  · rw [if_neg hneeds]
    refine h.setMembers hb fun hcol => h.pending fun hfree => hcol ?_
    refine hfree.add_member (Bool.eq_false_iff.2 hneeds) ?_
    split
    · exact Nat.le_succ _
    · simp

end

lemma takeBucket (h : Scheduled σ) (c k : CString) :
    Scheduled { σ with
      pool := update σ.pool c (σ.pool c).take.2
      key := update σ.key (c, (σ.pool c).take.1) (some k) } := by
  have hpool := (h.pool c).take
  have hfresh : σ.key (c, (σ.pool c).take.1) = none := not_not.1 (h.pool c).not_live_take
  generalize (σ.pool c).take = taken at hpool hfresh ⊢
  refine
    { pool := fun c' => ?_
      blank := fun {b'} hb' => ?_
      pending := h.pending
      live := fun {b'} hb' => ?_ }
  · show (update σ.pool c taken.2 c').Sound fun n =>
      update σ.key (c, taken.1) (some k) (c', n) ≠ none
    by_cases hc : c' = c
    · subst hc
      rw [update_self]
      refine hpool.congr fun n => ?_
      by_cases hn : n = taken.1
      · simp [hn]
      · simp [hn]
    · rw [update_of_ne hc]
      refine (h.pool c').congr fun n => ?_
      have hne : ((c', n) : Bucket) ≠ (c, taken.1) := fun heq => hc (congrArg Prod.fst heq)
      rw [update_of_ne hne]
  · by_cases hbb : b' = (c, taken.1)
    · subst hbb
      exact h.blank hfresh
    · have hold : update σ.key (c, taken.1) (some k) b' = none := hb'
      rw [update_of_ne hbb] at hold
      exact h.blank hold
  · show update σ.key (c, taken.1) (some k) b' ≠ none
    by_cases hbb : b' = (c, taken.1)
    · simp [hbb]
    · rw [update_of_ne hbb]
      exact h.live hb'

lemma newEntry (h : Scheduled σ) (c k : CString) (s : Strength) (object : DbObject) :
    Scheduled (newCacheEntry σ c k s object) := by
  have hblank := h.blank (not_not.1 (h.pool c).not_live_take)
  refine (h.takeBucket c k).setMembers ?_ fun hcol => absurd ?_ hcol
  · show update σ.key (c, (σ.pool c).take.1) (some k) (c, (σ.pool c).take.1) ≠ none
    rw [update_self]
    exact some_ne_none k
  · show CollisionFree (update (σ.members (c, (σ.pool c).take.1)) s [object])
    have hm : σ.members (c, (σ.pool c).take.1) = fun _ => [] := funext hblank
    rw [hm]
    cases s with
    | strong => exact ⟨by simp, by simp, by simp⟩
    | normal => exact ⟨by simp, by simp, by simp⟩
    | weak => exact ⟨by simp, by simp, by simp⟩

lemma dropOldKey (h : Scheduled σ) {new' : Option Tables}
    (hres : Unique.dropOldKey rules object (σ, new) entry = some (σ', new')) : Scheduled σ' := by
  have hleave : ∀ {r i oldKey},
      Unique.dropOldKey.leave object σ new r i oldKey = some (σ', new') → Scheduled σ' := by
    intro r i oldKey hleave
    rcases bind_eq_some_iff.1 hleave with ⟨b, hfind, hrest⟩
    rcases bind_eq_some_iff.1 hrest with ⟨s, _, hout⟩
    have hb : σ.key b ≠ none := by
      rw [key_of_findUnique hfind]
      exact some_ne_none oldKey
    have hleft := h.leave hb s object
    have hσ : (if (σ.members b s).erase object = [] then
        dropCollisionEntryIfEmpty (σ.setMembers b s ((σ.members b s).erase object)) b
        else σ.setMembers b s ((σ.members b s).erase object)) = σ' :=
      congrArg Prod.fst (some.inj hout)
    rw [← hσ]
    split
    · exact hleft.dropEmpty hb
    · exact hleft
  rcases bind_eq_some_iff.1 hres with ⟨r, _, hres⟩
  split at hres
  · split at hres
    · -- The key stays the same.
      cases hres
      exact h
    · exact hleave hres
  · exact hleave hres

lemma addNewKey (h : Scheduled σ) (hres : Unique.addNewKey rules object σ entry = some σ') :
    Scheduled σ' := by
  rcases entry with ⟨i, rule, newKey⟩
  rcases bind_eq_some_iff.1 hres with ⟨r, _, hrest⟩
  rcases bind_eq_some_iff.1 hrest with ⟨s, _, hout⟩
  split at hout
  · cases hout
    exact h.newEntry _ _ _ _
  · rename_i b hfind
    cases hout
    refine h.grow ?_ s object
    rw [key_of_findUnique hfind]
    exact some_ne_none newKey

end Scheduled

/-- What every turn of a loop keeps holds after the loop. -/
theorem foldlM_invariant {α β : Type} {f : β → α → Option β} {P : β → Prop}
    (hstep : ∀ {x y a}, P x → f x a = some y → P y) :
    ∀ {l : List α} {x y : β}, P x → l.foldlM f x = some y → P y := by
  intro l
  induction l with
  | nil =>
    intro x y hx hy
    obtain rfl : x = y := some.inj hy
    exact hx
  | cons a l ih =>
    intro x y hx hy
    rcases bind_eq_some_iff.1 hy with ⟨z, hz, hrest⟩
    exact ih (hstep hx hz) hrest

lemma Scheduled.update (h : Scheduled σ) {old : Option Tables}
    (hres : updateUniquenessCaches rules σ object old new = some σ') : Scheduled σ' := by
  rcases bind_eq_some_iff.1 hres with ⟨⟨σ₁, new₁⟩, hdrop, hadd⟩
  have h₁ : Scheduled σ₁ := foldlM_invariant (P := fun x : State × Option Tables => Scheduled x.1)
    (fun hx hxy => hx.dropOldKey hxy) (x := (σ, new)) h hdrop
  exact foldlM_invariant (fun hx hxy => hx.addNewKey hxy) h₁ hadd

lemma Scheduled.run (h : Scheduled σ) (hrun : Run rules σ σ') : Scheduled σ' := by
  induction hrun with
  | refl => exact h
  | tail _ hstep ih =>
    rcases hstep with ⟨op, hop⟩
    cases op with
    | create object new => exact ih.update hop
    | update object old new => exact ih.update hop
    | delete object old => exact ih.update hop
    | undelete object new => exact ih.update hop

end Steps

/-- After any operations of a transaction, the checks at commit succeed exactly when no bucket in
use has a collision: a bucket with a collision is always among those that are checked. -/
theorem uniqueChecks_of_run {rules : Rules} {σ σ' : State} (h : Committed σ)
    (hrun : Run rules σ σ') :
    ((udbDoUniqueChecks σ').1 = none ↔ ∀ b, σ'.key b ≠ none → CollisionFree (σ'.members b)) ∧
      ∀ b, σ'.key b ≠ none → ¬ CollisionFree (σ'.members b) → b ∈ σ'.uniqTable := by
  have hsched := h.scheduled.run hrun
  refine ⟨?_, fun b _ => hsched.pending⟩
  show (checkBuckets σ' σ'.uniqTable).1 = none ↔ _
  rw [checkBuckets_eq_none]
  constructor
  · intro hall b _
    by_contra hcol
    exact hcol (hall b (hsched.pending hcol))
  · exact fun hall b hb => hall b (hsched.live hb)

def State.empty : State where
  pool := fun _ => ⟨[], 0⟩
  key := fun _ => none
  members := fun _ _ => []
  uniqTable := []

lemma State.empty_committed : Committed State.empty :=
  { pool := fun _ => Pool.Sound.empty.congr fun _ => by simp [State.empty]
    blank := fun _ _ => rfl
    free := fun _ h => absurd rfl h
    checked := rfl }

def nameRule : Rules := fun rule =>
  if rule = ['r'] then some ⟨['c'], fun i => if i = 0 then some .normal else none⟩ else none

def nameKey (key : CString) : Tables := fun i =>
  if i = 0 then [(['r'], key)] else []

def threeObjects : List Op :=
  [.create 1 (nameKey ['k']), .create 2 (nameKey ['k']), .create 3 (nameKey ['l']),
    .update 2 (nameKey ['k']) (nameKey ['l']), .delete 1 (nameKey ['k'])]

lemma run_of_foldlM {rules : Rules} {ops : List Op} {σ σ' : State}
    (h : ops.foldlM (step rules) σ = some σ') : Run rules σ σ' :=
  foldlM_invariant (P := Run rules σ) (fun hrun hstep => hrun.tail ⟨_, hstep⟩) .refl h

/-- Object 2 is first in collision with object 1, and in the end with object 3. -/
theorem uniqueChecks_of_run_three : ∃ σ,
    threeObjects.foldlM (step nameRule) State.empty = some σ ∧
      (udbDoUniqueChecks σ).1 = some (.edirectuniq ['c'] [3, 2]) ∧
      ¬ ∀ b, σ.key b ≠ none → CollisionFree (σ.members b) := by
  obtain ⟨σ, hσ, hfails⟩ : ∃ σ, threeObjects.foldlM (step nameRule) State.empty = some σ ∧
      (udbDoUniqueChecks σ).1 = some (.edirectuniq ['c'] [3, 2]) := ⟨_, rfl, rfl⟩
  refine ⟨σ, hσ, hfails, fun hfree => ?_⟩
  rw [(uniqueChecks_of_run State.empty_committed (run_of_foldlM hσ)).1.2 hfree] at hfails
  cases hfails

end Unique
end Unameit
