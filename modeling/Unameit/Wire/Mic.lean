import Unameit.Wire.Image

/-!
# Wire.Mic — what `Unameit_DesMd5_Update_Mic` does

Whatever the state of a connection, the function changes nothing but the contexts, the trailer and
`mic_ok` (`updateMic_keeps`).
-/

namespace Unameit
namespace Wire

variable {ctx : Context} {reset : Bool}

/-! ## What is left alone -/

def Conn.sansMic (c : Conn) : Conn :=
  { c with
    message.trailer.mic := []
    message.readCrypto := ⟨false, none⟩
    message.writeCrypto := ⟨false, none⟩ }

structure Keeps (c c' : Conn) : Prop where
  rest : c'.sansMic = c.sansMic
  trailer : c.message.trailer.mic.length = micLen → c'.message.trailer.mic.length = micLen
  mic : c.message.hasMic c.state = true → c'.message.hasMic c.state = true

variable {P : Ciphers} {c c' c'' : Conn} {pos : ℕ}

namespace Keeps

lemma refl (c : Conn) : Keeps c c :=
  ⟨rfl, id, id⟩

/-- What does not depend on MICs is the same. -/
theorem same {α : Type*} (h : Keeps c c') (f : Conn → α)
    (hf : ∀ d, f d.sansMic = f d := by exact fun _ => rfl) : f c' = f c := by
  rw [← hf c', h.rest, hf c]

lemma state (h : Keeps c c') : c'.state = c.state :=
  h.same Conn.state

lemma buffer (h : Keeps c c') : c'.buffer = c.buffer := by
  rw [Conn.buffer_eq, Conn.buffer_eq]
  exact h.same (fun d : Conn => (d.message.data.bind d.heap).getD [])

lemma trans (h : Keeps c c') (h' : Keeps c' c'') : Keeps c c'' := by
  refine ⟨h'.rest.trans h.rest, fun ht => h'.trailer (h.trailer ht), fun hm => ?_⟩
  have := h'.mic
  rw [h.state] at this
  exact this (h.mic hm)

/-- The contexts of both directions may be replaced. -/
theorem setContext (c : Conn) (ctx : Context) (state : ConnState) : Keeps c (c.setContext ctx state) := by
  cases state with
  | writing =>
    refine ⟨rfl, id, fun hm => ?_⟩
    simp only [Conn.setContext, Message.hasMic, Option.isSome_some, Bool.or_eq_true,
      Bool.and_eq_true, decide_eq_true_eq, and_true] at hm ⊢
    exact hm.imp id And.left
  | _ =>
    refine ⟨rfl, id, fun hm => ?_⟩
    simp only [Conn.setContext, Message.hasMic, Option.isSome_some, Bool.or_eq_true,
      Bool.and_eq_true, decide_eq_true_eq, and_true] at hm ⊢
    exact hm.imp And.left id

end Keeps

lemma micEnable_keeps {key : Bytes} {state : ConnState} {seqno : ℕ}
    (h : micEnable c key state seqno = .ok c') : Keeps c c' := by
  unfold micEnable at h
  split_ifs at h with herr hstate
  · cases h
    exact .refl c
  · cases state with
    | reading =>
      cases h
      exact .setContext c _ .reading
    | writing =>
      cases h
      exact .setContext c _ .writing
    | _ => exact nomatch h

lemma nextMic_keeps (h : nextMic c ctx = .ok c') : Keeps c c' := by
  unfold nextMic at h
  simp only at h
  by_cases hzero : ctx.seqno = 0
  · rw [if_pos hzero] at h
    generalize hother : (if c.state = .reading then ConnState.writing else .reading) = other at h
    cases hen : micEnable c ctx.key other 1 with
    | error e =>
      rw [hen] at h
      exact nomatch h
    | ok c₁ =>
      rw [hen] at h
      simp only [bind, Except.bind] at h
      split at h
      · exact nomatch h
      · cases h
        exact ((micEnable_keeps hen).trans (.setContext _ _ _)).trans (.setContext _ _ _)
  · rw [if_neg hzero] at h
    cases h
    exact .setContext _ _ _

lemma length_halves {f g : Bytes → Bytes} {b : Bytes} (hb : b.length = micLen)
    (hf : ∀ {x : Bytes}, x.length = desLen → (f x).length = desLen)
    (hg : ∀ {x : Bytes}, x.length = desLen → (g x).length = desLen) :
    (f (b.take desLen) ++ g (b.drop desLen)).length = micLen := by
  have hfirst : (b.take desLen).length = desLen := by
    rw [List.length_take, hb]
    rfl
  have hsecond : (b.drop desLen).length = desLen := by
    rw [List.length_drop, hb]
    rfl
  rw [List.length_append, hf hfirst, hg hsecond]
  rfl

lemma sealMic_keeps (hlen : ctx.digest.length = micLen) (h : sealMic P c ctx = .ok c') :
    Keeps c c' := by
  have hnext := nextMic_keeps h
  refine Keeps.trans ?_ hnext
  exact ⟨rfl, fun _ => length_halves hlen P.encrypt_length P.encrypt_length, id⟩

lemma verifyMic_keeps (h : verifyMic P c ctx = .ok c') : Keeps c c' := by
  have hctx : Keeps c (c.setContext ctx .reading) := .setContext c ctx .reading
  unfold verifyMic at h
  simp only at h
  split_ifs at h with hfirst hsecond
  · cases h
    exact hctx.trans ⟨rfl, fun hlen => length_halves hlen P.decrypt_length (g := id) id, id⟩
  · cases h
    exact hctx.trans ⟨rfl, fun hlen => length_halves hlen P.decrypt_length P.decrypt_length, id⟩
  · have hnext := nextMic_keeps h
    refine (hctx.trans ?_).trans hnext
    exact ⟨rfl, fun hlen => length_halves hlen P.decrypt_length P.decrypt_length, id⟩

lemma updateMicWith_keeps (h : updateMicWith P c ctx = .ok c') : Keeps c c' := by
  unfold updateMicWith at h
  simp only at h
  split_ifs at h with hwait hmore hdone hwriting htrailer
  · cases h
    exact .refl c
  · cases h
    exact .setContext _ _ _
  · cases h
    exact .setContext _ _ _
  · refine sealMic_keeps ?_ h
    -- the digest has just been extracted
    unfold Context.finish
    rw [if_neg fun hfinal => hdone ⟨hfinal, hwriting⟩]
    exact P.md5_length _
  · cases h
    exact .setContext _ _ _
  · exact verifyMic_keeps h

/-- `Unameit_DesMd5_Update_Mic` changes nothing but what concerns MICs. -/
theorem updateMic_keeps (h : updateMic P c reset = .ok c') : Keeps c c' := by
  unfold updateMic at h
  simp only at h
  split at h
  · cases h
  · split at h
    · cases h
    · split_ifs at h
      · cases h
        exact .setContext _ _ _
      · exact updateMicWith_keeps h

lemma maybeUpdateMic_keeps (h : maybeUpdateMic P c reset = .ok c') :
    Keeps c c' ∧ c'.message.hasMic c.state = c.message.hasMic c.state := by
  unfold maybeUpdateMic at h
  split_ifs at h with hmic
  · have hkeeps := updateMic_keeps h
    exact ⟨hkeeps, (hkeeps.mic hmic).trans hmic.symm⟩
  · cases h
    exact ⟨.refl c, rfl⟩

lemma AtPos.of_keeps (h : AtPos c.message c.state pos) (hk : Keeps c c')
    (hmic : c'.message.hasMic c.state = c.message.hasMic c.state) :
    AtPos c'.message c'.state pos := by
  rw [hk.state]
  exact h.congr hmic (hk.same (·.message.shape))

lemma Fits.of_keeps (hfits : Fits c) (h : Keeps c c') : Fits c' := by
  have hlength : c'.message.length = c.message.length := h.same (·.message.length)
  have hheader : c'.message.header = c.message.header := h.same (·.message.header)
  refine ⟨?_, h.trailer hfits.trailer, ?_, ?_⟩
  · rw [hheader]
    exact hfits.header
  · rw [hlength]
    exact hfits.length_lt
  · rw [hlength, h.buffer, h.state]
    exact hfits.data

end Wire
end Unameit
