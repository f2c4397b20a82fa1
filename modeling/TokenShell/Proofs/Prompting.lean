import TokenShell.Proofs.Spine
import TokenShell.Session.Basic

/-! The prompt of a session tells whether a node is open in the tree. By the tokens that were
inserted, that is whether some opener is unmatched, apart from a lone parenthesis that still waits
for its head. -/
namespace TokenShell

/-- Whether the last token is a parenthesis whose head has not arrived. -/
def headless (toks : List Token) : Bool := toks.getLast?.any (·.kind = .marker .openGroup)

theorem headless_concat (toks : List Token) (tok : Token) :
    headless (toks ++ [tok]) = decide (tok.kind = .marker .openGroup) := by
  simp [headless]

theorem headless_append (closed : List Token) {recent : List Token} (h : recent ≠ []) :
    headless (closed ++ recent) = headless recent := by
  rw [headless, headless, List.getLast?_append_of_ne_nil _ h]

/-- A head is awaited just after a parenthesis. -/
theorem Nesting.awaits_step {s s' : Nesting} {o : Token × Nat} (h : s.step o = some s') :
    s'.awaits = decide (o.1.kind = .marker .openGroup) := by
  have hclose : ∀ m, s.close m = some s' → s'.awaits = false := by
    intro m hm
    unfold close at hm
    split at hm
    · cases hm
    · next ha =>
      split at hm
      · cases hm
      · next p path hp =>
        split at hm
        · obtain rfl := Option.some.inj hm
          rw [push_awaits]
          simpa using ha
        · cases hm
  cases hk : o.1.kind with
  | marker m =>
    cases m with
    | closeGroup | closeBlock | closeCommand =>
      rw [step_closer hk rfl] at h
      rw [hclose _ h]
      rfl
    | openGroup | openBlock | openCommand =>
      simp only [step, hk] at h
      split at h
      · cases h
      · obtain rfl := Option.some.inj h
        rfl
    | terminator =>
      simp only [step, hk] at h
      split at h
      · cases h
      · next ha =>
        obtain rfl := Option.some.inj h
        simp_all
  | _ =>
    have hplain : o.1.Plain := fun m hm => by cases hk.symm.trans hm
    rw [step_plain hplain] at h
    split at h
    · obtain rfl := Option.some.inj h
      rfl
    · next ha =>
      obtain rfl := Option.some.inj h
      rw [push_awaits]
      simpa using ha

namespace Tree

variable {t : Tree} {tok : Token} {toks more : List Token}

/-- The tokens account for all that is open in the tree. -/
structure Tracks (t : Tree) (toks : List Token) : Prop where
  staged : t.Staged
  openPath : t.OpenPath
  openers : unmatched toks = some t.openers
  head : t.expectHead = headless toks

theorem Tracks.fresh : Tracks {} [] := ⟨staged_empty, ⟨by simp, by simp⟩, rfl, rfl⟩

theorem Tracks.insert (h : t.Tracks toks) (hf : (t.insert tok).failure = none) :
    (t.insert tok).tree.Tracks (toks ++ [tok]) where
  staged := (h.staged.insert tok).tree
  openPath := h.openPath.insert h.staged tok
  openers := unmatched_insert h.openers h.staged hf
  head := by
    obtain ⟨s, hs, hm⟩ := (t.mirrors_self.agrees_insert h.staged tok).taken hf
    rw [hm.expectHead, Nesting.awaits_step hs, headless_concat]

/-- After a failure nothing is open. -/
theorem Tracks.insert_failed (h : t.Tracks toks) {f : Failure}
    (hf : (t.insert tok).failure = some f) : (t.insert tok).tree.Tracks [] := by
  have hreset : unmatched [] = some (t.insert tok).tree.openers ∧
      (t.insert tok).tree.expectHead = false := by
    rcases insert_tree t tok with ⟨-, -, hi⟩ | ⟨g, -, ht, -⟩
    · cases hi.symm.trans hf
    · rw [ht]
      exact ⟨rfl, rfl⟩
  exact ⟨(h.staged.insert tok).tree, h.openPath.insert h.staged tok, hreset.1, hreset.2⟩

theorem Tracks.insertAll (h : t.Tracks toks) (more : List Token) :
    (t.insertAll more).tree.Tracks
      (if (t.insertAll more).failure.isNone then toks ++ more else []) := by
  induction more generalizing t toks with
  | nil => simpa [Tree.insertAll] using h
  | cons tok more ih =>
    rw [Tree.insertAll, Step.next]
    cases hi : (t.insert tok).failure with
    | some f =>
      simp only [hi]
      exact h.insert_failed hi
    | none =>
      have hnext := ih (h.insert hi)
      rwa [List.append_assoc, List.singleton_append] at hnext

theorem Tracks.reset (h : t.Tracks toks) : t.reset.tree.Tracks [] where
  staged := h.staged.reset.tree
  openPath := h.openPath.reset h.staged
  openers := rfl
  head := rfl

theorem Tracks.evaluate {σ : Type} (h : t.Tracks toks) (d : Option (Dispatcher σ)) (w : σ)
    (cancelled : Bool) (interrupts : List Bool) :
    (t.evaluate d w cancelled interrupts).tree.Tracks toks where
  staged := (h.staged.evaluate d w cancelled interrupts).1
  openPath := h.openPath.evaluate d w cancelled interrupts
  openers := h.openers
  head := h.head

/-- A node is open just if an opener is unmatched that is not a lone parenthesis without a head. -/
theorem Tracks.path_ne_nil (h : t.Tracks toks) :
    t.path ≠ [] ↔ t.openers ≠ [] ∧ ¬ (t.openers = [.openGroup] ∧ headless toks = true) := by
  rw [← h.head]
  cases hp : t.path with
  | nil => cases he : t.expectHead <;> simp [Tree.openers, hp, he]
  | cons n path =>
    obtain ⟨m, hm⟩ : ∃ m, n.label.opener = some m := by
      have hopen := (h.openPath.path n (by simp [hp])).label
      exact Option.isSome_iff_exists.mp (Bool.and_eq_true_iff.mp hopen).1
    have hlong : t.openers = path.reverse.filterMap (·.label.opener) ++ m ::
        if t.expectHead then [.openGroup] else [] := by
      simp [Tree.openers, hp, hm]
    refine ⟨fun _ => ⟨?_, ?_⟩, fun _ => List.cons_ne_nil n path⟩
    · rw [hlong]
      simp
    · rintro ⟨hone, he⟩
      have hlength := congrArg List.length (hlong.symm.trans hone)
      rw [he] at hlength
      simp at hlength

end Tree

namespace Session

variable {σ : Type} {d : Option (Dispatcher σ)} {s : Session σ} {toks : List Token}

/-- The tokens inserted since the last reset, after one more line. A line that cannot be inserted
resets the tree. -/
def inserted (s : Session σ) (toks : List Token) (line : Bytes) : List Token :=
  let text := Bytes.trim line
  if text = [] then toks
  else if text.head? = some 0x3a then if Bytes.lower text = ":reset" then [] else toks
  else
    match Line.tokenize text with
    | .error _ => toks
    | .ok new => if (s.tree.insertAll new).failure.isNone then toks ++ new else []

/-- Handles lines with their interrupts, and keeps the tokens inserted since the last reset. -/
def handleLines (d : Option (Dispatcher σ)) (s : Session σ) (toks : List Token) :
    List (Bytes × List Bool) → Session σ × List Token
  | [] => (s, toks)
  | (line, interrupts) :: lines =>
    handleLines d (s.handleLine d interrupts line).session (s.inserted toks line) lines

theorem control_tree (s : Session σ) (line : Bytes) : (s.control line).session.tree =
    if Bytes.lower line = ":reset" then s.tree.reset.tree else s.tree := by
  unfold control
  dsimp only
  by_cases hr : Bytes.lower line = ":reset"
  · rw [hr, if_neg (by decide), if_neg (by decide), if_neg (by decide)]
    rfl
  · rw [if_neg hr]
    repeat' split
    all_goals rfl

theorem tracks_handleLine (h : s.tree.Tracks toks) (d : Option (Dispatcher σ))
    (interrupts : List Bool) (line : Bytes) :
    (s.handleLine d interrupts line).session.tree.Tracks (s.inserted toks line) := by
  unfold handleLine inserted
  generalize Bytes.trim line = text
  dsimp only
  split
  · rw [if_pos rfl]
    exact h
  · next rest =>
    rw [if_neg (List.cons_ne_nil _ rest), List.head?_cons, if_pos rfl, control_tree]
    split
    · exact h.reset
    · exact h
  · next hblank hcolon =>
    have hhead : text.head? ≠ some 0x3a := by
      intro hc
      obtain ⟨rest, hrest⟩ := List.head?_eq_some_iff.mp hc
      exact hcolon rest hrest
    rw [if_neg hblank, if_neg hhead]
    cases Line.tokenize text with
    | error e => exact h
    | ok new => exact (h.insertAll new).evaluate d s.world s.cancelled interrupts

theorem tracks_handleLines (h : s.tree.Tracks toks) (d : Option (Dispatcher σ))
    (lines : List (Bytes × List Bool)) :
    (s.handleLines d toks lines).1.tree.Tracks (s.handleLines d toks lines).2 := by
  induction lines generalizing s toks with
  | nil => exact h
  | cons line lines ih => exact ih (tracks_handleLine h d line.2 line.1)

theorem settings_handleLine (s : Session σ) (d : Option (Dispatcher σ)) (interrupts : List Bool)
    (line : Bytes) : (s.handleLine d interrupts line).session.settings = s.settings := by
  unfold handleLine
  split
  · rfl
  · unfold control
    dsimp only
    repeat' split
    all_goals rfl
  · split <;> rfl

theorem settings_handleLines (s : Session σ) (d : Option (Dispatcher σ)) (toks : List Token)
    (lines : List (Bytes × List Bool)) :
    (s.handleLines d toks lines).1.settings = s.settings := by
  induction lines generalizing s toks with
  | nil => rfl
  | cons line lines ih =>
    rw [handleLines, ih]
    exact s.settings_handleLine d line.2 line.1

/-- The prompt after any lines is the one for continuation just if recent tokens leave openers
unmatched, apart from a lone parenthesis whose head has not arrived. -/
theorem prompt_tells_open (settings : Settings) (h : settings.prompt ≠ continuationPrompt)
    (table : List Bytes → List (List Bytes) → Bytes) (d : Option (Dispatcher σ)) (w : σ)
    (cancelled : Bool) (lines : List (Bytes × List Bool)) :
    let r := handleLines d { settings, table, world := w, cancelled } [] lines
    ∀ closed recent, r.2 = closed ++ recent → unmatched closed = some [] →
      ∃ opens, unmatched recent = some opens ∧
        (r.1.prompt = continuationPrompt ↔
          opens ≠ [] ∧ ¬ (opens = [.openGroup] ∧ headless recent = true)) ∧
        (r.1.prompt ≠ continuationPrompt → r.1.prompt = settings.prompt) := by
  intro r closed recent hsplit hclosed
  have ht : r.1.tree.Tracks r.2 := tracks_handleLines .fresh d lines
  have hopen : unmatched recent = some r.1.tree.openers := by
    rw [← unmatched_append hclosed, ← hsplit]
    exact ht.openers
  have hset : r.1.settings = settings := settings_handleLines _ d [] lines
  have hprompt : r.1.prompt = continuationPrompt ↔ r.1.tree.path ≠ [] := by
    unfold prompt
    rw [hset]
    cases r.1.tree.path with
    | nil => simpa using h
    | cons n path => simp
  refine ⟨_, hopen, ?_, ?_⟩
  · rw [hprompt, ht.path_ne_nil]
    refine and_congr_right fun hne => not_congr (and_congr_right fun _ => ?_)
    have hrecent : recent ≠ [] := by
      rintro rfl
      exact hne (Option.some.inj hopen).symm
    rw [hsplit, headless_append closed hrecent]
  · intro hne
    have hpath : r.1.tree.path = [] := by
      by_contra hp
      exact hne (hprompt.mpr hp)
    unfold prompt
    rw [hpath, hset]
    rfl

/-- A command on two lines, and then a sum that is not finished. -/
def unfinishedLines : List (Bytes × List Bool) :=
  [("[ FRAG:'a'", []), ("FRAG:'b' ] ;", [true]), ("( PLUS INT:'1'", [])]

/-- A session without a dispatcher. -/
def undispatched : Session Unit := { settings := {}, table := fun _ _ => [], world := () }

theorem prompt_tells_open_unfinishedLines :
    let r := undispatched.handleLines none [] unfinishedLines
    let recent : List Token := [⟨"(", []⟩, ⟨"PLUS", []⟩, ⟨"INT", "1"⟩]
    ({} : Settings).prompt ≠ continuationPrompt ∧ r.2 = r.2.take 5 ++ recent ∧
      unmatched (r.2.take 5) = some [] ∧ unmatched recent = some [.openGroup] ∧
      headless recent = false ∧ r.1.prompt = continuationPrompt := by
  intro r recent
  have hset : ({} : Settings).prompt ≠ continuationPrompt := by decide
  have hsplit : r.2 = r.2.take 5 ++ recent := by decide +kernel
  have hclosed : unmatched (r.2.take 5) = some [] := by decide +kernel
  have hrecent : unmatched recent = some [.openGroup] ∧ headless recent = false := by decide +kernel
  obtain ⟨opens, hopens, hprompt, -⟩ := prompt_tells_open {} hset (fun _ _ => [])
    (none : Option (Dispatcher Unit)) () false unfinishedLines _ _ hsplit hclosed
  obtain rfl : [.openGroup] = opens := Option.some.inj (hrecent.1.symm.trans hopens)
  refine ⟨hset, hsplit, hclosed, hrecent.1, hrecent.2, hprompt.mpr ⟨by simp, ?_⟩⟩
  rw [hrecent.2]
  simp

/-- After a lone parenthesis the prompt is the one that is set, though the parenthesis is
unmatched. -/
theorem prompt_ignores_headless :
    let r := undispatched.handleLines none [] [("(", [])]
    unmatched r.2 = some [.openGroup] ∧ r.1.prompt = ({} : Settings).prompt ∧
      r.1.prompt ≠ continuationPrompt := by
  decide +kernel

end Session

end TokenShell
