import Unameit.Radix
import Unameit.Uuid

/-!
# Uuid.Text — the texts of the uuids of a process

`Uuid_StringCreate` puts the fields of a new uuid in network byte order and encodes its octets.
-/

namespace Unameit
namespace Uuid

open Radix

/-- The octets of a uuid in network byte order; `node` is the saved address of the host. -/
def octetsOf (node : Fin 6 → BitVec 8) (u : UuidT) : Data :=
  ![u.timeLow.extractLsb' 24 8, u.timeLow.extractLsb' 16 8, u.timeLow.extractLsb' 8 8,
    u.timeLow.extractLsb' 0 8, u.timeMid.extractLsb' 8 8, u.timeMid.extractLsb' 0 8,
    u.timeHiAndVersion.extractLsb' 8 8, u.timeHiAndVersion.extractLsb' 0 8,
    u.clockSeqHiAndReserved, u.clockSeqLow, node 0, node 1, node 2, node 3, node 4, node 5]

/-- `Uuid_StringCreate`, with at most `fuel` readings of the clock. -/
def uuidStringCreate (w : World) (node : Fin 6 → BitVec 8) (fuel : ℕ) (s : State) :
    Option (CString × State) := do
  let (uuid, s) ← createUuid w fuel s
  return (udbRadix64Encode (octetsOf node uuid), s)

def texts (w : World) (node : Fin 6 → BitVec 8) : List ℕ → State → Option (List CString × State)
  | [], s => some ([], s)
  | fuel :: fuels, s => do
    let (text, s) ← uuidStringCreate w node fuel s
    let (rest, s) ← texts w node fuels s
    return (text :: rest, s)

variable {w : World} {node : Fin 6 → BitVec 8}

lemma texts_eq (fuels : List ℕ) : ∀ s, texts w node fuels s = (calls w fuels s).map fun r =>
    (r.1.map fun u => udbRadix64Encode (octetsOf node u), r.2) := by
  induction fuels with
  | nil => exact fun s => rfl
  | cons fuel fuels ih =>
    intro s
    rw [texts, calls, uuidStringCreate]
    cases createUuid w fuel s with
    | none => rfl
    | some r =>
      have hrest := ih r.2
      cases hcalls : calls w fuels r.2 <;> simp [hcalls, hrest]

lemma time_eq_of_octetsOf {u v : UuidT} (h : octetsOf node u = octetsOf node v) :
    u.time = v.time := by
  have hoctets : ∀ i, (octetsOf node u i).toNat = (octetsOf node v i).toNat := fun i => by rw [h]
  simp [Fin.forall_fin_succ, octetsOf, BitVec.extractLsb'_toNat,
    Nat.shiftRight_eq_div_pow] at hoctets
  unfold UuidT.time
  omega

/-- As long as the clock leaves the adjusted times behind, no text is handed out twice, and every
text passes the checks for uuids, in C and in Tcl. -/
theorem texts_nodup (w : World) (node : Fin 6 → BitVec 8)
    (hclock : Monotone fun n => (w.clock n).value) (fuels : List ℕ) (ts : List CString) (s : State)
    (hrun : texts w node fuels (.init w) = some (ts, s)) (hfit : AllFit w fuels (.init w)) :
    ts.Nodup ∧ ∀ t ∈ ts, uuidValid t = true ∧ uuidok t = true := by
  rw [texts_eq, Option.map_eq_some_iff] at hrun
  rcases hrun with ⟨⟨us, s'⟩, hcalls, heq⟩
  obtain ⟨rfl, rfl⟩ := Prod.mk.inj heq
  have hinit : Ordered w (.init w) := ⟨hclock, hclock (Nat.zero_le 1), Nat.zero_le _⟩
  refine ⟨List.pairwise_map.2 ((calls_increasing fuels _ us _ hinit hfit hcalls).1.imp ?_), ?_⟩
  · intro u v hlt htext
    have hoctets : some (octetsOf node u) = some (octetsOf node v) := by
      rw [← udbRadix64Decode_encode, htext, udbRadix64Decode_encode]
    exact hlt.ne (time_eq_of_octetsOf (Option.some.inj hoctets))
  · intro t ht
    rcases List.mem_map.1 ht with ⟨u, -, rfl⟩
    obtain ⟨hlen, hdigits, -⟩ := accepted_udbRadix64Encode (octetsOf node u)
    refine ⟨by simp [uuidValid, udbRadix64Decode_encode], ?_⟩
    simp only [digit64_isSome] at hdigits
    have hne : udbRadix64Encode (octetsOf node u) ≠ [] := List.ne_nil_of_length_pos (by omega)
    simpa [uuidok, hlen, hne] using hdigits

theorem texts_nodup_stepClock : ∃ ts s,
    texts (stepClock 1) (fun _ => 7) [1, 1] (.init (stepClock 1)) = some (ts, s) ∧ ts.Nodup := by
  refine ⟨_, _, rfl, (texts_nodup _ _ (monotone_stepClock 1) [1, 1] _ _ rfl ?_).1⟩
  refine ⟨⟨by decide, by decide⟩, fun _ _ hcall => ?_⟩
  obtain ⟨-, rfl⟩ := Prod.mk.inj (Option.some.inj hcall)
  exact ⟨⟨by decide, by decide⟩, fun _ _ _ => trivial⟩

end Uuid
end Unameit
