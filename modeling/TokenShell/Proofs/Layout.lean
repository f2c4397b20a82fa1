import TokenShell.Proofs.Trimming
import TokenShell.Proofs.Writing
import TokenShell.Session.Run

/-! Layouts of a script: how tokens may be spread over lines, and what a line of a layout is to a
session. -/
namespace TokenShell

/-- What may stand between tokens. -/
def IsSeparator (b : UInt8) : Prop := b = 0x20 ∨ b = 0x09 ∨ b = Bytes.newline

instance : DecidablePred IsSeparator := fun _ => inferInstanceAs (Decidable (_ ∨ _))

/-- Tokens as they are written one after the other, each of them followed by separators or by the
end. Separators may also stand before the first. -/
inductive LaidOut : List Token → Bytes → Prop where
  | blank {gap : Bytes} (h : ∀ b ∈ gap, IsSeparator b) : LaidOut [] gap
  | token {gap rest : Bytes} {t : Token} {ts : List Token} (h : ∀ b ∈ gap, IsSeparator b)
      (hnext : ∀ b ∈ rest.head?, IsSeparator b) (hrest : LaidOut ts rest) :
      LaidOut (t :: ts) (gap ++ (t.text ++ rest))

variable {b : UInt8} {gap text line rest : Bytes} {t : Token} {ts : List Token}

theorem IsSeparator.isGap (h : IsSeparator b) : Rune.IsGap b := by
  rcases h with rfl | rfl | rfl <;> exact ⟨by decide, by decide⟩

theorem IsSeparator.isBlank (h : IsSeparator b) : Line.isBlank b = true := by
  rcases h with rfl | rfl | rfl <;> rfl

theorem Token.Alphabetic.isSolid (h : Token.Alphabetic b) : Rune.IsSolid b := by
  simp only [Token.Alphabetic, Char.reduceToNat] at h
  refine ⟨by rw [UInt8.lt_iff_toNat_lt]; simp; omega, ?_⟩
  simp [Text.isBlank]
  omega

theorem Marker.isSolid (m : Marker) : Rune.IsSolid m.byte := by
  cases m <;> exact ⟨by decide, by decide⟩

namespace Token

/-- The written form of a token begins with a byte that is neither blank nor a colon, ends with one
that is not blank, and holds no line break unless the value does. -/
structure Compact (text : Bytes) : Prop where
  first : ∃ b more, text = b :: more ∧ Rune.IsSolid b ∧ b ≠ 0x3a
  last : ∀ b ∈ text.getLast?, Rune.IsSolid b
  line : Bytes.newline ∉ text

theorem Compact.ne_nil (h : Compact text) : text ≠ [] := by
  obtain ⟨b, more, rfl, -⟩ := h.first
  exact List.cons_ne_nil b more

theorem newline_not_alphabetic : ¬ Alphabetic Bytes.newline := by
  decide

theorem escape_newline {value : Bytes} (h : Bytes.newline ∉ value) :
    Bytes.newline ∉ value.flatMap escapeByte := by
  intro hm
  obtain ⟨b, hb, hm⟩ := List.mem_flatMap.mp hm
  have hne : Bytes.newline ≠ b := fun he => h (he ▸ hb)
  unfold escapeByte at hm
  split at hm
  · rcases List.mem_cons.mp hm with hm | hm
    · cases hm
    · exact hne (List.mem_singleton.mp hm)
  · exact hne (List.mem_singleton.mp hm)

/-- A token that can be written on a line, and on one. -/
def OneLine (t : Token) : Prop := t.Representable ∧ Bytes.newline ∉ t.value

instance : DecidablePred OneLine := fun _ => inferInstanceAs (Decidable (_ ∧ _))

theorem OneLine.compact (h : t.OneLine) : Compact t.text := by
  obtain ⟨name, value⟩ := t
  obtain ⟨h, hv⟩ := h
  rcases h with ⟨hnil, hm⟩ | ⟨hne, hn⟩
  · obtain ⟨m, -, rfl⟩ := List.mem_map.mp hm
    obtain rfl : value = [] := hnil
    refine ⟨⟨m.byte, [], rfl, m.isSolid, ?_⟩, ?_, ?_⟩
    · cases m <;> decide
    · intro b hb
      obtain rfl : m.byte = b := by simpa [text, Marker.name] using hb
      exact m.isSolid
    · cases m <;> decide
  · obtain ⟨b, more, rfl⟩ := List.exists_cons_of_ne_nil hne
    have hb : Alphabetic b := hn b (by simp)
    have hcolon := (Line.isNameByte_apart ((Line.isNameByte_iff b).mpr hb)).2.2.1
    have hname : Bytes.newline ∉ b :: more := fun hm => newline_not_alphabetic (hn _ hm)
    unfold text
    dsimp only
    split
    · refine ⟨⟨b, more, rfl, hb.isSolid, hcolon⟩, ?_, hname⟩
      intro c hc
      exact (hn c (List.mem_of_getLast? hc)).isSolid
    · refine ⟨⟨b, _, rfl, hb.isSolid, hcolon⟩, ?_, ?_⟩
      · intro c hc
        rw [List.getLast?_concat] at hc
        obtain rfl : 0x27 = c := Option.some.inj hc
        exact ⟨by decide, by decide⟩
      · have hvalue := escape_newline hv
        simp only [List.mem_append, List.mem_cons, not_or] at hname ⊢
        exact ⟨⟨hname, by decide, by decide, hvalue⟩, by decide, by simp⟩

end Token

namespace Bytes

variable {xs ys : Bytes}

theorem cutLine_append (h : newline ∉ xs) (ys : Bytes) :
    cutLine (xs ++ ys) = (xs ++ (cutLine ys).1, (cutLine ys).2) := by
  induction xs with
  | nil => rfl
  | cons b xs ih =>
    obtain ⟨hb, hxs⟩ : newline ≠ b ∧ newline ∉ xs := by simpa using h
    rw [List.cons_append, cutLine, if_neg (Ne.symm hb), ih hxs]
    rfl

theorem cutLine_newline (ys : Bytes) : cutLine (newline :: ys) = ([newline], ys) := by
  rw [cutLine, if_pos rfl]

theorem append_cutLine (xs : Bytes) : (cutLine xs).1 ++ (cutLine xs).2 = xs := by
  induction xs with
  | nil => rfl
  | cons b xs ih =>
    rw [cutLine]
    split
    · rfl
    · simpa using ih

end Bytes

/-! Layouts are read, trimmed and cut into lines. -/

theorem IsSeparator.not_solid (h : IsSeparator b) : ¬ Rune.IsSolid b := by
  intro hs
  rw [Rune.IsSolid, h.isGap.2] at hs
  cases hs.2

theorem reads_gap (h : ∀ b ∈ gap, IsSeparator b) (hrest : Line.Reads .between rest ts) :
    Line.Reads .between (gap ++ rest) ts := by
  induction gap with
  | nil => exact hrest
  | cons b gap ih =>
    obtain ⟨hb, hgap⟩ := List.forall_mem_cons.mp h
    exact (Line.resumes_blank hb.isBlank (ih hgap)).between

namespace LaidOut

theorem reads (h : LaidOut ts text) (ht : ∀ t ∈ ts, t.OneLine) :
    Line.Reads .between text ts ∧
      ((∀ b ∈ text.head?, IsSeparator b) → Line.Resumes text ts) := by
  induction h with
  | @blank gap h =>
    have hreads := reads_gap h Line.resumes_nil.between
    rw [List.append_nil] at hreads
    refine ⟨hreads, fun _ => ?_⟩
    cases gap with
    | nil => exact Line.resumes_nil
    | cons b gap =>
      obtain ⟨hb, hgap⟩ := List.forall_mem_cons.mp h
      have hmore := reads_gap hgap Line.resumes_nil.between
      rw [List.append_nil] at hmore
      exact Line.resumes_blank hb.isBlank hmore
  | @token gap rest t ts h hnext _ ih =>
    obtain ⟨htok, hts⟩ := List.forall_mem_cons.mp ht
    have hread := Line.reads_text htok.1 ((ih hts).2 hnext)
    refine ⟨reads_gap h hread, fun hsep => ?_⟩
    cases gap with
    | nil =>
      obtain ⟨b, more, htext, hsolid, -⟩ := htok.compact.first
      rw [htext] at hsep
      exact ((hsep b rfl).not_solid hsolid).elim
    | cons b gap =>
      obtain ⟨hb, hgap⟩ := List.forall_mem_cons.mp h
      exact Line.resumes_blank hb.isBlank (reads_gap hgap hread)

theorem indent (h : LaidOut ts text) (hgap : ∀ b ∈ gap, IsSeparator b) :
    LaidOut ts (gap ++ text) := by
  cases h with
  | blank h => exact .blank (List.forall_mem_append.mpr ⟨hgap, h⟩)
  | token h hnext hrest =>
    rw [← List.append_assoc]
    exact .token (List.forall_mem_append.mpr ⟨hgap, h⟩) hnext hrest

/-- Tokens with the same separators after each. -/
theorem spaced (hne : gap ≠ []) (hgap : ∀ b ∈ gap, IsSeparator b) (ts : List Token) :
    LaidOut ts (ts.flatMap fun t => t.text ++ gap) := by
  induction ts with
  | nil => exact .blank (by simp)
  | cons t ts ih =>
    rw [List.flatMap_cons, List.append_assoc, ← List.nil_append (t.text ++ _)]
    refine .token (by simp) ?_ (ih.indent hgap)
    intro b hb
    rw [List.head?_append_of_ne_nil _ hne] at hb
    exact hgap b (List.mem_of_mem_head? hb)

/-- Without the separators at its end a layout is one of the same tokens. -/
theorem trim_end (h : LaidOut ts text) (ht : ∀ t ∈ ts, t.OneLine) :
    ∃ body gap, text = body ++ gap ∧ (∀ b ∈ gap, IsSeparator b) ∧ LaidOut ts body ∧
      ∀ b ∈ body.getLast?, Rune.IsSolid b := by
  induction h with
  | @blank gap h => exact ⟨[], gap, rfl, h, .blank (by simp), by simp⟩
  | @token gap rest t ts h hnext _ ih =>
    obtain ⟨htok, hts⟩ := List.forall_mem_cons.mp ht
    obtain ⟨body, gap', rfl, hgap', hlay, hlast⟩ := ih hts
    refine ⟨gap ++ (t.text ++ body), gap', by simp, hgap', .token h ?_ hlay, ?_⟩
    · cases body with
      | nil => simp
      | cons b body => exact hnext
    · have hne : t.text ≠ [] := htok.compact.ne_nil
      cases body with
      | nil => simpa [List.getLast?_append_of_ne_nil _ hne] using htok.compact.last
      | cons b body => simpa [List.getLast?_append_of_ne_nil] using hlast

/-- The first line of a layout is a layout of the tokens on it, and what follows is one of the
others. -/
theorem cut (h : LaidOut ts text) (ht : ∀ t ∈ ts, t.OneLine) :
    ∃ as bs, ts = as ++ bs ∧ LaidOut as (Bytes.cutLine text).1 ∧
      LaidOut bs (Bytes.cutLine text).2 ∧
      (Session.endsLine (Bytes.cutLine text).1 = false → bs = []) := by
  induction h with
  | @blank gap h =>
    have happ := Bytes.append_cutLine gap
    refine ⟨[], [], rfl, .blank fun b hb => h b ?_, .blank fun b hb => h b ?_, fun _ => rfl⟩
    · exact happ ▸ List.mem_append_left _ hb
    · exact happ ▸ List.mem_append_right _ hb
  | @token gap rest t ts h hnext hrest ih =>
    obtain ⟨htok, hts⟩ := List.forall_mem_cons.mp ht
    -- The line ends before the first token, or it ends where the line of what follows does.
    by_cases hgap : Bytes.newline ∈ gap
    · obtain ⟨xs, ys, rfl, hxs⟩ := List.eq_append_cons_of_mem hgap
      rw [List.append_assoc, List.cons_append, Bytes.cutLine_append hxs, Bytes.cutLine_newline]
      refine ⟨[], t :: ts, rfl, .blank fun b hb => h b ?_, .token (fun b hb => h b ?_) hnext hrest,
        fun hends => ?_⟩
      · simp only [List.mem_append, List.mem_cons, List.not_mem_nil, or_false] at hb ⊢
        exact hb.imp_right .inl
      · exact List.mem_append_right _ (List.mem_cons_of_mem _ hb)
      · simp [Session.endsLine] at hends
    · obtain ⟨as, bs, rfl, hline, hmore, hends⟩ := ih hts
      rw [Bytes.cutLine_append hgap, Bytes.cutLine_append htok.compact.line]
      refine ⟨t :: as, bs, rfl, .token h ?_ hline, hmore, fun hopen => hends ?_⟩
      · intro b hb
        refine hnext b ?_
        rw [← Bytes.append_cutLine rest]
        exact List.mem_head?_append_of_mem_head? hb
      · cases hl : (Bytes.cutLine rest).1 with
        | nil => rfl
        | cons b more => simpa [Session.endsLine, hl, List.getLast?_append_of_ne_nil] using hopen

end LaidOut

/-- To a session a line of a layout is the tokens on it. -/
theorem Session.handleLine_layout {σ : Type} (d : Option (Dispatcher σ)) (interrupts : List Bool)
    (s : Session σ) (h : LaidOut ts line) (ht : ∀ t ∈ ts, t.OneLine) :
    s.handleLine d interrupts line =
      if ts = [] then { session := s } else s.feed d interrupts ts := by
  cases ts with
  | nil =>
    cases h with
    | blank h => simp only [handleLine, Bytes.trim_gap fun b hb => (h b hb).isGap, if_true]
  | cons t ts =>
    obtain ⟨body, gap', rfl, hgap', hlay, hlast⟩ := h.trim_end ht
    cases hlay with
    | @token gap rest _ _ hgap hnext hrest =>
      obtain ⟨b, more, htext, hsolid, hcolon⟩ := (ht t (by simp)).compact.first
      have hne : t.text ++ rest ≠ [] := by simp [htext]
      have htrim : Bytes.trim ((gap ++ (t.text ++ rest)) ++ gap') = t.text ++ rest := by
        rw [List.append_assoc]
        refine Bytes.trim_between (fun b hb => (hgap b hb).isGap) (fun b hb => (hgap' b hb).isGap)
          hne ?_ ?_
        · simpa [htext] using hsolid
        · rwa [List.getLast?_append_of_ne_nil _ hne] at hlast
      have hlay : LaidOut (t :: ts) ([] ++ (t.text ++ rest)) := .token (by simp) hnext hrest
      have hread : Line.tokenize (t.text ++ rest) = .ok (t :: ts) := (hlay.reads ht).1 0
      rw [if_neg (List.cons_ne_nil t ts), handleLine, htrim]
      rw [htext, List.cons_append] at hread ⊢
      split
      next h => cases h
      next h => exact (hcolon (List.cons.inj h).1).elim
      next h => rw [hread]

end TokenShell
