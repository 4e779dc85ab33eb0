import Mathlib.Tactic
import Unameit.Inet.Basic

/-!
# Qbe.Glob — glob patterns as SQL patterns

A `~` constraint of a query-by-example specification compares an attribute with a glob pattern.
`Push_Glob` rewrites the pattern for SQL's `LIKE ... ESCAPE '\'` and pushes the result as a value of
the query.  Both kinds of pattern are read as a sequence of pieces here.
-/

namespace Unameit
namespace Qbe

/-! ## What the patterns mean -/

inductive Piece
  | any
  | one
  | literal (c : Char)
  deriving DecidableEq

def Matches : List Piece → CString → Prop
  | [], t => t = []
  | .any :: ps, t => ∃ u v, t = u ++ v ∧ Matches ps v
  | .one :: ps, t => ∃ c v, t = c :: v ∧ Matches ps v
  | .literal c :: ps, t => ∃ v, t = c :: v ∧ Matches ps v

def likePiece (c : Char) : Piece :=
  if c = '%' then .any else if c = '_' then .one else .literal c

/-- The pieces of a LIKE pattern with the escape character `\`, which may not be its last one. -/
def likePieces : CString → Option (List Piece)
  | [] => some []
  | c :: p =>
    if c = '\\' then
      match p with
      | [] => none
      | c' :: p' => (likePieces p').map (.literal c' :: ·)
    else (likePieces p).map (likePiece c :: ·)

def globPiece (c : Char) : Piece :=
  if c = '*' then .any else if c = '?' then .one else .literal c

/-- The pieces of a glob pattern, where a trailing `\` stands for itself. -/
def globPieces : CString → List Piece
  | [] => []
  | c :: s =>
    if c = '\\' then
      match s with
      | [] => [.literal '\\']
      | c' :: s' => .literal c' :: globPieces s'
    else globPiece c :: globPieces s

def Like (pattern t : CString) : Prop :=
  ∃ ps, likePieces pattern = some ps ∧ Matches ps t

def Glob (pattern t : CString) : Prop :=
  Matches (globPieces pattern) t

lemma likePieces_cons {c : Char} (hc : c ≠ '\\') (p : CString) :
    likePieces (c :: p) = (likePieces p).map (likePiece c :: ·) := by
  cases p <;> simp [likePieces, hc]

lemma globPieces_cons {c : Char} (hc : c ≠ '\\') (s : CString) :
    globPieces (c :: s) = globPiece c :: globPieces s := by
  cases s <;> simp [globPieces, hc]

/-! ## `Push_Glob` -/

/-- The body of the loop, for the text built so far and the `int` `backslashed`. -/
def pushGlobStep (st : CString × BitVec 32) (c : Char) : CString × BitVec 32 :=
  let (dstr, backslashed) := st
  if c = '_' then (dstr ++ ['\\', '_'], 0)
  else if c = '*' then (dstr ++ [if backslashed ≠ 0 then '*' else '%'], 0)
  else if c = '%' then (dstr ++ ['\\', '%'], 0)
  else if c = '?' then (dstr ++ [if backslashed ≠ 0 then '?' else '_'], 0)
  else if c = '\\' then
    (if backslashed ≠ 0 then dstr ++ ['\\', '\\'] else dstr, ~~~backslashed)
  else (dstr ++ [c], 0)

def pushGlobEnd (st : CString × BitVec 32) : CString :=
  if st.2 ≠ 0 then st.1 ++ ['\\', '\\'] else st.1

def pushGlob (s : CString) : CString :=
  pushGlobEnd (s.foldl pushGlobStep ([], 0))

/-- What the rest `s` of the pattern adds to the text when the flag is clear, and when it is set:
then the backslash that set it is still to be read with `s`. -/
theorem pushGlob_rest (s dstr : CString) :
    (∃ p, pushGlobEnd (s.foldl pushGlobStep (dstr, 0)) = dstr ++ p ∧
      likePieces p = some (globPieces s)) ∧
    ∃ p, pushGlobEnd (s.foldl pushGlobStep (dstr, ~~~0)) = dstr ++ p ∧
      likePieces p = some (globPieces ('\\' :: s)) := by
  induction s generalizing dstr with
  | nil =>
    refine ⟨⟨[], ?_, rfl⟩, ⟨['\\', '\\'], ?_, rfl⟩⟩
    · simp [pushGlobEnd]
    · simp [pushGlobEnd]
  | cons c s ih =>
    -- After any other character the flag is clear again, and the text has grown by `q`.
    have hclear : ∀ {b ps q}, pushGlobStep (dstr, b) c = (dstr ++ q, 0) →
        (∀ p, likePieces (q ++ p) = (likePieces p).map (ps :: ·)) →
        ∃ p, pushGlobEnd ((c :: s).foldl pushGlobStep (dstr, b)) = dstr ++ p ∧
          likePieces p = some (ps :: globPieces s) := by
      intro b ps q hstep hread
      rcases (ih (dstr ++ q)).1 with ⟨p, hend, hp⟩
      refine ⟨q ++ p, ?_, ?_⟩
      · rw [List.foldl_cons, hstep, hend, List.append_assoc]
      · rw [hread, hp, Option.map_some]
    by_cases hback : c = '\\'
    · subst hback
      refine ⟨?_, hclear (q := ['\\', '\\']) (by simp [pushGlobStep]) (by simp [likePieces])⟩
      -- The first backslash only sets the flag.
      simpa [pushGlobStep] using (ih dstr).2
    · have hescaped : globPieces ('\\' :: c :: s) = .literal c :: globPieces s := by
        simp [globPieces]
      rw [globPieces_cons hback, hescaped]
      have hread : ∀ {c}, c ≠ '\\' → ∀ p,
          likePieces ([c] ++ p) = (likePieces p).map (likePiece c :: ·) :=
        fun hc p => likePieces_cons hc p
      by_cases hunder : c = '_'
      · subst hunder
        exact ⟨hclear rfl fun _ => rfl, hclear rfl fun _ => rfl⟩
      by_cases hpercent : c = '%'
      · subst hpercent
        exact ⟨hclear rfl fun _ => rfl, hclear rfl fun _ => rfl⟩
      by_cases hstar : c = '*'
      · subst hstar
        exact ⟨hclear rfl (hread (by decide)), hclear rfl (hread (by decide))⟩
      by_cases hquery : c = '?'
      · subst hquery
        exact ⟨hclear rfl (hread (by decide)), hclear rfl (hread (by decide))⟩
      have hstep : ∀ b, pushGlobStep (dstr, b) c = (dstr ++ [c], 0) := by
        intro b
        simp [pushGlobStep, hback, hunder, hstar, hpercent, hquery]
      have hlike : likePiece c = .literal c := by simp [likePiece, hpercent, hunder]
      have hglob : globPiece c = .literal c := by simp [globPiece, hstar, hquery]
      rw [hglob, ← hlike]
      exact ⟨hclear (hstep _) (hread hback), hclear (hstep _) (hread hback)⟩

/-- `Push_Glob` keeps the meaning of the pattern. -/
theorem pushGlob_like (s t : CString) : Like (pushGlob s) t ↔ Glob s t := by
  rcases (pushGlob_rest s []).1 with ⟨p, hp, hread⟩
  rw [Like, Glob, pushGlob, hp, List.nil_append, hread]
  simp

end Qbe
end Unameit
