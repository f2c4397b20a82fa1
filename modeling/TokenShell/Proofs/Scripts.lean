import TokenShell.Host.Shell
import TokenShell.Proofs.Layout
import TokenShell.Proofs.Schedule
import TokenShell.Proofs.Simulation

/-! Line breaks do not change a script: a session that gets the same tokens on other lines writes
the same and hands over the same commands. -/
namespace TokenShell

/-- A step that hands no command over. -/
def Step.Silent (s : Step) : Prop := handed (s.events.map .log) = []

theorem Step.Silent.next {s : Step} {f : Tree → Step} (h : s.Silent) (hf : ∀ t, (f t).Silent) :
    (s.next f).Silent := by
  unfold Step.next
  split
  · exact h
  · simp only [Silent, List.map_append, handed_append]
    rw [h, hf s.tree, List.append_nil]

theorem Flushed.silent (within : Option Nat) (scopes : Scopes) (ns : List Node) :
    handed ((of within scopes ns).events.map .log) = [] := by
  induction ns generalizing scopes with
  | nil => rfl
  | cons n ns ih =>
    unfold of
    split
    · exact ih scopes
    · split
      · rfl
      · exact ih _

namespace Tree

theorem silent_flush (t : Tree) : t.flush.Silent := by
  unfold flush
  split <;> exact Flushed.silent _ _ _

theorem silent_closeCursor (t : Tree) : t.closeCursor.Silent := by
  unfold closeCursor
  split
  · rfl
  · dsimp only
    split
    · exact silent_flush _
    · rfl

theorem silent_close (t : Tree) (tok : Token) (m : Marker) : (t.close tok m).Silent := by
  unfold close
  split
  · rfl
  · split
    · rfl
    · split
      · rfl
      · split
        · exact t.silent_flush.next silent_closeCursor
        · exact t.silent_closeCursor

theorem silent_grow (t : Tree) (tok : Token) : (t.grow tok).Silent := by
  have hattach : ∀ opener, (t.attach tok opener).events = [] := by
    intro opener
    unfold attach
    dsimp only
    split
    · rfl
    · split
      · rfl
      · split <;> rfl
  have hword : handed
      ((if tok.kind = .word then [Event.unknownName tok.name] else []).map .log) = [] := by
    split <;> rfl
  simp only [Step.Silent, grow, hattach, List.append_nil]
  exact hword

theorem silent_place (t : Tree) (tok : Token) : (t.place tok).Silent := by
  unfold place
  split
  · split <;> rfl
  · unfold terminate
    split
    · rfl
    · split
      · rfl
      · exact t.silent_flush
  · exact t.silent_close _ _
  · exact t.silent_close _ _
  · exact t.silent_close _ _
  · split
    · rfl
    · exact t.silent_grow tok
  · exact t.silent_grow tok

theorem silent_insert (t : Tree) (tok : Token) : (t.insert tok).Silent := by
  have hplace := silent_place { t with clock := t.clock + 1 } tok
  unfold insert
  dsimp only
  split
  · exact hplace
  · simp only [Step.Silent, List.cons_append, List.map_cons, List.map_append]
    rw [← List.singleton_append, handed_append, handed_append, hplace, ← List.singleton_append,
      handed_append]
    unfold reset
    dsimp only
    split <;> rfl

/-- Inserting tokens hands no command over. -/
theorem silent_insertAll (t : Tree) (toks : List Token) : (t.insertAll toks).Silent := by
  induction toks generalizing t with
  | nil => rfl
  | cons tok toks ih => exact (t.silent_insert tok).next ih

end Tree

/-! What is written, and by whom. -/

def Output.out? (w : Writer) : Output → Option Bytes
  | .out v text => if v = w then some text else none
  | _ => none

def Output.err? (w : Writer) : Output → Option Bytes
  | .err v text => if v = w then some text else none
  | _ => none

/-- What one of the two writes to the output, piece by piece. -/
def outs (w : Writer) (os : List Output) : List Bytes := os.filterMap (Output.out? w)

/-- What one of the two writes as errors. -/
def errText (w : Writer) (os : List Output) : Bytes := (os.filterMap (Output.err? w)).flatten

/-- All that is written to the output. -/
def outText (os : List Output) : Bytes :=
  os.flatMap fun
    | .out _ text => text
    | _ => []

@[simp] theorem outs_append (w : Writer) (a b : List Output) :
    outs w (a ++ b) = outs w a ++ outs w b := by
  simp [outs]

@[simp] theorem errText_append (w : Writer) (a b : List Output) :
    errText w (a ++ b) = errText w a ++ errText w b := by
  simp [errText]

theorem outs_log (w : Writer) (es : List Event) : outs w (es.map .log) = [] := by
  simp [outs, Output.out?]

theorem errText_log (w : Writer) (es : List Event) : errText w (es.map .log) = [] := by
  simp [errText, Output.err?]

theorem outs_dispatcher_shown (vs : List Value) : outs .dispatcher (vs.map Session.shown) = [] := by
  simp [outs, Output.out?, Session.shown]

theorem errText_shown (w : Writer) (vs : List Value) : errText w (vs.map Session.shown) = [] := by
  simp [errText, Output.err?, Session.shown]

theorem handed_shown (vs : List Value) : handed (vs.map Session.shown) = [] := by
  simp [handed, Output.handed?, Session.shown]

theorem errText_complaint {α : Type} (f : α → Fault) (x : Option α) :
    errText .session (x.map fun a => Session.complaint (f a)).toList = [] ↔ x = none := by
  cases x <;> simp [errText, Output.err?, Session.complaint]

theorem outs_session_foreign {os : List Output} (h : ∀ o ∈ os, o.Foreign) :
    outs .session os = [] := by
  refine List.filterMap_eq_nil_iff.mpr fun o ho => ?_
  have hforeign := h o ho
  cases o with
  | out w text => simp [Output.out?, show w = .dispatcher from hforeign]
  | _ => rfl

theorem errText_session_foreign {os : List Output} (h : ∀ o ∈ os, o.Foreign) :
    errText .session os = [] := by
  have hnil : os.filterMap (Output.err? .session) = [] := by
    refine List.filterMap_eq_nil_iff.mpr fun o ho => ?_
    have hforeign := h o ho
    cases o with
    | err w text => simp [Output.err?, show w = .dispatcher from hforeign]
    | _ => rfl
  rw [errText, hnil, List.flatten_nil]

/-- Where the dispatcher writes nothing, the output is the session's. -/
theorem outText_of_quiet {os : List Output} (h : outs .dispatcher os = []) :
    outText os = (outs .session os).flatten := by
  induction os with
  | nil => rfl
  | cons o os ih =>
    rw [outText, List.flatMap_cons, ← outText]
    cases o with
    | out w text =>
      cases w with
      | dispatcher => simp [outs, Output.out?] at h
      | session =>
        rw [ih (by simpa [outs, Output.out?] using h)]
        simp [outs, Output.out?]
    | _ => exact ih h

/-! Lines of tokens. -/

section Feeding

variable {σ : Type} {d : Option (Dispatcher σ)} {R : σ → σ → Prop}
  {s : Session σ} {os : List Output} {r : Run σ} {cs : List Call} {toks : List Token}

/-- The calls that a line of tokens makes. -/
def lineCalls (toks : List Token) : List Call := toks.map .insert ++ [.evaluate false []]

/-- Nothing has failed in the run. -/
structure Run.Clean (r : Run σ) : Prop where
  reports : ∀ p ∈ r.reports, p.2 = none
  unfailing : r.Unfailing

theorem Run.Clean.of_step {c : Call} (h : (r.step d c).Clean) : r.Clean := by
  obtain ⟨hr, hu⟩ := h
  cases c with
  | insert tok => exact ⟨fun p hp => hr p (List.mem_append_left _ hp), hu⟩
  | reset => exact ⟨fun p hp => hr p (List.mem_append_left _ hp), hu⟩
  | evaluate cancelled interrupts => exact ⟨hr, unfailing_of_evaluate hu⟩

theorem Run.Clean.of_foldl (h : (cs.foldl (step d) r).Clean) : r.Clean := by
  induction cs generalizing r with
  | nil => exact h
  | cons c cs ih => exact (ih h).of_step

/-- Inserting tokens one by one is inserting all of them, as long as nothing fails. -/
theorem Run.foldl_insert (d : Option (Dispatcher σ)) (r : Run σ) (toks : List Token) :
    ∃ t reports closed, (toks.map .insert).foldl (step d) r =
        { r with tree := t, reports := r.reports ++ reports, closed } ∧
      ((r.tree.insertAll toks).failure = none ↔ ∀ p ∈ reports, p.2 = none) ∧
      ((r.tree.insertAll toks).failure = none → (r.tree.insertAll toks).tree = t) := by
  induction toks generalizing r with
  | nil => exact ⟨r.tree, [], r.closed, by simp, by simp [Tree.insertAll], fun _ => rfl⟩
  | cons tok toks ih =>
    obtain ⟨t, reports, closed, hfold, hiff, htree⟩ := ih (r.step d (.insert tok))
    refine ⟨t, ((r.tree.insert tok).events, (r.tree.insert tok).failure) :: reports, closed, ?_, ?_⟩
    · rw [List.map_cons, List.foldl_cons, hfold]
      simp [step]
    · rw [Tree.insertAll, Step.next, List.forall_mem_cons]
      cases hf : (r.tree.insert tok).failure with
      | none => exact ⟨hiff.trans (iff_and_self.mpr fun _ => rfl), htree⟩
      | some f => simp [hf]

/-- A line that is inserted whole. -/
theorem Session.feed_inserted (hins : (s.tree.insertAll toks).failure = none)
    (hlive : s.cancelled = false) (hplain : s.settings.printTree = false) :
    let e := (s.tree.insertAll toks).tree.evaluate d s.world false []
    s.feed d [] toks =
      { session := { s with tree := e.tree, world := e.world, cancelled := e.cancelled }
        outputs := (s.tree.insertAll toks).events.map .log ++ e.outputs ++ e.values.map shown ++
          (e.stop.map fun x => complaint x.fault).toList } := by
  simp [feed, hins, hlive, hplain]

theorem Session.inserted_of_errText (h : errText .session (s.feed d [] toks).outputs = []) :
    (s.tree.insertAll toks).failure = none := by
  simp only [feed, errText_append, List.append_eq_nil_iff, errText_complaint] at h
  exact h.1.1.1.1.2

/-- The session has come to where the run is. It has complained about nothing, it has written the
results of the run, and the dispatcher has written what it wrote in the run. -/
structure Session.Shadows (R : σ → σ → Prop) (s : Session σ) (os : List Output) (r : Run σ) :
    Prop where
  tree : s.tree = r.tree
  world : s.world = r.world
  state : R r.world r.world
  live : s.cancelled = false
  plain : s.settings.printTree = false
  clean : r.Clean
  errors : errText .session os = []
  results : outs .session os = outs .session (r.values.map shown)
  words : outs .dispatcher os = outs .dispatcher r.outputs
  warnings : errText .dispatcher os = errText .dispatcher r.outputs
  handed : handed os = handed r.outputs

/-- A line keeps the session where the run is if either of them goes on without an error. -/
theorem Session.Shadows.feed (hd : Option.Rel (Dispatcher.Mirrors R) d d) (h : s.Shadows R os r)
    (toks : List Token)
    (hor : errText .session (s.feed d [] toks).outputs = [] ∨
      ((lineCalls toks).foldl (Run.step d) r).Clean) :
    (s.feed d [] toks).session.Shadows R (os ++ (s.feed d [] toks).outputs)
      ((lineCalls toks).foldl (Run.step d) r) := by
  obtain ⟨t, reports, closed, hfold, hiff, htree⟩ := Run.foldl_insert d r toks
  rw [lineCalls, List.foldl_append, hfold, List.foldl_cons, List.foldl_nil] at hor ⊢
  rw [← h.tree] at hiff htree
  have hins : (s.tree.insertAll toks).failure = none := by
    refine hor.elim Session.inserted_of_errText fun hc => hiff.mpr fun p hp => ?_
    exact hc.reports p (List.mem_append_right _ hp)
  obtain rfl := htree hins
  have hfeed := Session.feed_inserted (d := d) hins h.live h.plain
  have hm := Tree.mirrors_evaluate hd (s.tree.insertAll toks).tree h.state
  rw [h.world] at hfeed
  simp only [Run.step] at hor ⊢
  generalize (s.tree.insertAll toks).tree.evaluate d r.world false [] = e at hfeed hm hor ⊢
  have hstop : e.stop = none := by
    rcases hor with hor | ⟨-, hun⟩
    · rw [hfeed] at hor
      simp only [errText_append, List.append_eq_nil_iff, errText_complaint] at hor
      exact hor.2
    · exact hm.stop_eq_none fun f hs => hun f (by simp [hs])
  rw [hfeed, hstop]
  have hsilent : TokenShell.handed ((s.tree.insertAll toks).events.map .log) = [] :=
    s.tree.silent_insertAll toks
  refine ⟨rfl, rfl, hm.state, hm.live.1, h.plain, ⟨?_, ?_⟩, ?_, ?_, ?_, ?_, ?_⟩
  · intro p hp
    exact (List.mem_append.mp hp).elim (h.clean.reports p) (hiff.mp hins p)
  · intro f hf
    exact (List.mem_append.mp hf).elim (h.clean.unfailing f) (by simp)
  · simp [h.errors, errText_session_foreign hm.foreign, errText_log, errText_shown]
  · simp [h.results, outs_session_foreign hm.foreign, outs_log]
  · simp [h.words, outs_log, outs_dispatcher_shown]
  · simp [h.warnings, errText_log, errText_shown]
  · simp [h.handed, hsilent, handed_shown]

/-- Feeds lines of tokens one after the other. -/
def Session.deliver (d : Option (Dispatcher σ)) (s : Session σ) : List (List Token) → Handled σ
  | [] => { session := s }
  | toks :: lines =>
    let h := s.feed d [] toks
    let k := h.session.deliver d lines
    { k with outputs := h.outputs ++ k.outputs }

theorem Session.deliver_append (d : Option (Dispatcher σ)) (s : Session σ)
    (lines more : List (List Token)) :
    s.deliver d (lines ++ more) =
      let h := s.deliver d lines
      let k := h.session.deliver d more
      { k with outputs := h.outputs ++ k.outputs } := by
  induction lines generalizing s with
  | nil => rfl
  | cons toks lines ih => simp [deliver, ih]

theorem Session.Shadows.deliver (hd : Option.Rel (Dispatcher.Mirrors R) d d)
    (h : s.Shadows R os r) (lines : List (List Token))
    (hor : errText .session (s.deliver d lines).outputs = [] ∨
      ((lines.flatMap lineCalls).foldl (Run.step d) r).Clean) :
    (s.deliver d lines).session.Shadows R (os ++ (s.deliver d lines).outputs)
      ((lines.flatMap lineCalls).foldl (Run.step d) r) := by
  induction lines generalizing s os r with
  | nil => simpa [Session.deliver] using h
  | cons toks lines ih =>
    rw [List.flatMap_cons, List.foldl_append] at hor ⊢
    rw [Session.deliver] at hor ⊢
    simp only [errText_append, List.append_eq_nil_iff] at hor
    have hnext := h.feed hd toks (hor.imp And.left Run.Clean.of_foldl)
    rw [← List.append_assoc]
    exact ih hnext (hor.imp_left And.right)

theorem lines_eq_nil {lines : List (List Token)} (h : ∀ toks ∈ lines, toks ≠ [])
    (hf : lines.flatten = []) : lines = [] :=
  List.eq_nil_iff_forall_not_mem.mpr fun toks hm =>
    h toks hm (List.flatten_eq_nil_iff.mp hf toks hm)

/-- The evaluation after the last line is the last call. -/
theorem lineCalls_concat {lines : List (List Token)} (h : lines ≠ []) :
    ∃ cs, lines.flatMap lineCalls = cs ++ [.evaluate false []] ∧
      cs.filter Call.edits = lines.flatten.map .insert := by
  have hinsert : ∀ toks : List Token, (toks.map Call.insert).filter Call.edits = toks.map .insert :=
    fun toks => List.filter_eq_self.mpr (by simp [Call.edits])
  obtain ⟨init, last, rfl⟩ := lines.eq_nil_or_concat.resolve_left h
  refine ⟨init.flatMap lineCalls ++ last.map .insert, by simp [lineCalls], ?_⟩
  have hinit : (init.flatMap lineCalls).filter Call.edits = init.flatten.map .insert := by
    rw [List.filter_flatMap, List.map_flatten, List.flatMap_def]
    refine congrArg List.flatten (List.map_congr_left fun toks _ => ?_)
    rw [lineCalls, List.filter_append, hinsert]
    simp [Call.edits]
  rw [List.filter_append, hinit, hinsert]
  simp

/-- Nothing cuts an evaluation short in a live run. -/
theorem Run.uncut (hd : Option.Rel (Dispatcher.Mirrors R) d d) {w : σ}
    (hw : R w w) (hcs : ∀ b i, .evaluate b i ∈ cs → b = false ∧ i = []) :
    R (of d w cs).world (of d w cs).world ∧ some .cancelled ∉ (of d w cs).stops := by
  induction cs using List.reverseRecOn with
  | nil => exact ⟨hw, by simp [of]⟩
  | append_singleton cs c ih =>
    obtain ⟨hstate, huncut⟩ := ih fun b i hm => hcs b i (List.mem_append_left _ hm)
    rw [of_concat]
    cases c with
    | evaluate cancelled interrupts =>
      obtain ⟨rfl, rfl⟩ := hcs cancelled interrupts (by simp)
      have hm := Tree.mirrors_evaluate hd (of d w cs).tree hstate
      refine ⟨hm.state, fun hc => ?_⟩
      exact (List.mem_append.mp hc).elim huncut fun hc => hm.uncut (List.mem_singleton.mp hc).symm
    | _ => exact ⟨hstate, huncut⟩

/-- Where the breaks between lines stand does not matter to the run. -/
theorem Run.clean_of_flatten (hd : Option.Rel (Dispatcher.Mirrors R) d d) {w : σ} (hw : R w w)
    {lines lines' : List (List Token)}
    (hne : ∀ toks ∈ lines, toks ≠ []) (hne' : ∀ toks ∈ lines', toks ≠ [])
    (hflat : lines'.flatten = lines.flatten) (h : (of d w (lines.flatMap lineCalls)).Clean) :
    let r := of d w (lines.flatMap lineCalls)
    let r' := of d w (lines'.flatMap lineCalls)
    r'.Clean ∧ r'.world = r.world ∧ r'.values = r.values ∧ r'.outputs = r.outputs := by
  intro r r'
  by_cases hnil : lines = []
  · subst hnil
    obtain rfl := lines_eq_nil hne' hflat
    exact ⟨h, rfl, rfl, rfl⟩
  have hnil' : lines' ≠ [] := by
    rintro rfl
    exact hnil (lines_eq_nil hne hflat.symm)
  -- The lemmas on schedules ask that the last evaluation is not cut short.
  have hlast : ∀ lines : List (List Token),
      (of d w (lines.flatMap lineCalls)).stops.getLast? ≠ some (some .cancelled) := by
    intro lines hs
    refine (uncut hd hw fun b i hm => ?_).2 (List.mem_of_getLast? hs)
    obtain ⟨toks, -, hm⟩ := List.mem_flatMap.mp hm
    simpa [lineCalls] using hm
  obtain ⟨cs, hcs, hedits⟩ := lineCalls_concat hnil
  obtain ⟨cs', hcs', hedits'⟩ := lineCalls_concat hnil'
  have hlast₁ := hlast lines
  have hlast₂ := hlast lines'
  rw [hflat, ← hedits] at hedits'
  simp only [r, r', hcs, hcs'] at h hlast₁ hlast₂ ⊢
  obtain ⟨-, hfol, hall⟩ := settled d w cs false [] hlast₁ (Or.inl h.unfailing)
  obtain ⟨xs', ys, -, -, hev, -⟩ := hall.done
  rw [← hedits'] at hfol hall hev
  obtain ⟨hun', hfol', hall'⟩ := settled d w cs' false [] hlast₂ (Or.inr ⟨xs', _, hev⟩)
  obtain ⟨-, hworld, hv, ho⟩ := hall.unique hall'
  refine ⟨⟨?_, hun'⟩, hworld, hv, ho⟩
  rw [hfol'.reports, ← hfol.reports]
  exact h.reports

end Feeding

/-! Lines of input. -/

/-- The state of a dispatcher after some commands of a live run. -/
def Dispatcher.after {σ : Type} (d : Dispatcher σ) (w : σ) (commands : List Bytes) : σ :=
  commands.foldl (fun w command => (d.send false command w).2) w

section Lines

variable {σ : Type} {d : Option (Dispatcher σ)} {w : σ} {s : Session σ} {ts : List Token}
  {text : Bytes}

/-- The dispatcher never cancels a live run. -/
def Live (d : Option (Dispatcher σ)) (w : σ) : Prop :=
  ∀ e ∈ d, ∀ past command, (e.send false command (e.after w past)).1.cancels = false

/-- A state to which commands lead. -/
def Leads (d : Option (Dispatcher σ)) (w v : σ) : Prop := ∀ e ∈ d, ∃ past, e.after w past = v

theorem leads_refl (d : Option (Dispatcher σ)) (w : σ) : Leads d w w := fun _ _ => ⟨[], rfl⟩

/-- In a live run a dispatcher that keeps something beside its state is the same. -/
theorem Live.mirrors {τ : Type} (h : Live d w) {Q : τ → σ → Prop} (f : Dispatcher σ → Dispatcher τ)
    (hf : ∀ e command u v, Q u v → ((f e).send false command u).1 = (e.send false command v).1 ∧
      Q ((f e).send false command u).2 (e.send false command v).2) :
    Option.Rel (Dispatcher.Mirrors fun u v => Q u v ∧ Leads d w v) (d.map f) d := by
  cases d with
  | none => exact .none
  | some e =>
    refine .some ⟨?_, ?_, ?_⟩
    · rintro command u v ⟨hq, -⟩
      exact (hf e command u v hq).1.symm
    · rintro command u v ⟨hq, hv⟩
      refine ⟨(hf e command u v hq).2, ?_⟩
      intro e' he
      cases he
      obtain ⟨past, rfl⟩ := hv e rfl
      exact ⟨past ++ [command], by simp [Dispatcher.after]⟩
    · rintro command u v ⟨hq, hv⟩
      obtain ⟨past, rfl⟩ := hv e rfl
      rw [(hf e command u _ hq).1]
      exact h e rfl past command

/-- A session with input before it. -/
def Session.reading (s : Session σ) (input : Bytes) : Session (Feed σ) :=
  ⟨s.settings, s.table, s.tree, ⟨input, s.world⟩, s.cancelled⟩

/-- A session of a live run. -/
structure Session.Going (d : Option (Dispatcher σ)) (w : σ) (s : Session σ) : Prop where
  live : s.cancelled = false
  state : Leads d w s.world

/-- The input takes no part in what a session does with a line. -/
theorem Session.Going.feed (h : s.Going d w) (hd : Live d w) (input : Bytes) (toks : List Token) :
    (s.reading input).feed (d.map Feed.beside) [] toks =
        { session := (s.feed d [] toks).session.reading input
          outputs := (s.feed d [] toks).outputs } ∧
      (s.feed d [] toks).session.Going d w := by
  have hmirrors := hd.mirrors (Q := fun u v => u = ⟨input, v⟩) Feed.beside (by
    rintro e command _ v rfl
    exact ⟨rfl, rfl⟩)
  have hm := Tree.mirrors_evaluate hmirrors (s.tree.insertAll toks).tree
    (w := ⟨input, s.world⟩) (v := s.world) ⟨rfl, h.state⟩
  simp only [Session.feed, reading, h.live, hm.tree, hm.outputs, hm.values, hm.stop, hm.state.1,
    hm.live.1, hm.live.2, true_and]
  exact ⟨rfl, hm.state.2⟩

theorem Session.Going.line (h : s.Going d w) (hd : Live d w) {line : Bytes} (hl : LaidOut ts line)
    (ht : ∀ t ∈ ts, t.OneLine) (rest : Bytes) :
    ∃ lines, lines.flatten = ts ∧ (∀ toks ∈ lines, toks ≠ []) ∧
      (if line.isEmpty then { session := s.reading rest }
        else (s.reading rest).handleLine (d.map Feed.beside) [] line) =
        { session := (s.deliver d lines).session.reading rest
          outputs := (s.deliver d lines).outputs } ∧
      (s.deliver d lines).session.Going d w := by
  have hhandle : (if line.isEmpty then { session := s.reading rest }
      else (s.reading rest).handleLine (d.map Feed.beside) [] line) =
        if ts = [] then { session := s.reading rest }
        else (s.reading rest).feed (d.map Feed.beside) [] ts := by
    rw [← handleLine_layout _ _ _ hl ht]
    cases line with
    | nil => rfl
    | cons b line => rfl
  rw [hhandle]
  by_cases hts : ts = []
  · exact ⟨[], by simp [hts], by simp, by simp [hts, deliver], h⟩
  · obtain ⟨hfeed, hgoing⟩ := h.feed hd rest ts
    exact ⟨[ts], by simp, by simpa using hts, by simp [hts, hfeed, deliver], hgoing⟩

/-- A session that reads a layout gets its tokens line by line. -/
theorem Session.Going.runFor (h : s.Going d w) (hd : Live d w) (fuel : Nat) (hl : LaidOut ts text)
    (ht : ∀ t ∈ ts, t.OneLine) (hfuel : text.length < fuel) :
    ∃ lines left, lines.flatten = ts ∧ (∀ toks ∈ lines, toks ≠ []) ∧
      (s.reading text).runFor (d.map Feed.beside) fuel [] =
        { session := (s.deliver d lines).session.reading left
          outputs := (s.deliver d lines).outputs } := by
  induction fuel generalizing s ts text with
  | zero => exact absurd hfuel (Nat.not_lt_zero _)
  | succ fuel ih =>
    obtain ⟨as, bs, rfl, hline, hrest, hopen⟩ := hl.cut ht
    rcases hcut : Bytes.cutLine text with ⟨line, rest⟩
    rw [hcut] at hline hrest hopen
    have happ : line ++ rest = text := by simpa only [hcut] using Bytes.append_cutLine text
    obtain ⟨hta, htb⟩ := List.forall_mem_append.mp ht
    obtain ⟨first, rfl, hfirst, hhandled, hgoing⟩ := h.line hd hline hta rest
    have htake : (s.reading text).takeLine = (line, s.reading rest) := by
      simp only [takeLine, reading, hcut]
    rw [Session.runFor, htake]
    simp only [List.headD_nil, hhandled]
    cases hends : endsLine line with
    | false =>
      obtain rfl := hopen hends
      exact ⟨first, rest, by simp, hfirst, by simp⟩
    | true =>
      -- A line that ends has at least its newline, so what is left is shorter.
      have hlen : rest.length < fuel := by
        have hne : line ≠ [] := by
          rintro rfl
          cases hends
        have := List.length_pos_iff.mpr hne
        rw [← happ, List.length_append] at hfuel
        omega
      obtain ⟨more, left, hmore, hnonempty, hrun⟩ := ih hgoing hrest htb hlen
      refine ⟨first ++ more, left, by simp [hmore], ?_, ?_⟩
      · exact List.forall_mem_append.mpr ⟨hfirst, hnonempty⟩
      · have hlive : ((s.deliver d first).session.reading rest).cancelled = false := hgoing.live
        simp [hlive, hrun, deliver_append]

/-- Line breaks do not change a script: if the first of two live sessions complains about nothing,
the second neither; their results, and the commands and words of their dispatchers, are the same. -/
theorem Session.line_breaks_irrelevant (hd : Live d w) {settings : Settings}
    (hplain : settings.printTree = false) (table : List Bytes → List (List Bytes) → Bytes)
    (ht : ∀ t ∈ ts, t.OneLine) {a b : Bytes} (ha : LaidOut ts a) (hb : LaidOut ts b)
    (h : errText .session
      (run (d.map Feed.beside) [] { settings, table, world := ⟨a, w⟩ }).outputs = []) :
    let r := run (d.map Feed.beside) [] { settings, table, world := ⟨a, w⟩ }
    let r' := run (d.map Feed.beside) [] { settings, table, world := ⟨b, w⟩ }
    errText .session r'.outputs = [] ∧
      outs .session r'.outputs = outs .session r.outputs ∧
      outs .dispatcher r'.outputs = outs .dispatcher r.outputs ∧
      errText .dispatcher r'.outputs = errText .dispatcher r.outputs ∧
      (outs .dispatcher r.outputs = [] → outText r'.outputs = outText r.outputs) ∧
      handed r'.outputs = handed r.outputs ∧
      r'.session.world.rest = r.session.world.rest := by
  intro r r'
  -- Both sessions are compared with the runs that their lines make.
  let s : Session σ := { settings, table, world := w }
  have hself : Option.Rel (Dispatcher.Mirrors fun u v => u = v ∧ Leads d w v) d d := by
    have hmirrors := hd.mirrors (Q := Eq) id (by
      rintro e command _ v rfl
      exact ⟨rfl, rfl⟩)
    rwa [Option.map_id_apply] at hmirrors
  have hw : w = w ∧ Leads d w w := ⟨rfl, leads_refl d w⟩
  have hfresh : s.Shadows (fun u v => u = v ∧ Leads d w v) [] { world := w } :=
    ⟨rfl, rfl, hw, rfl, hplain, ⟨by simp, by simp [Run.Unfailing]⟩, rfl, rfl, rfl, rfl, rfl⟩
  have hgoing : s.Going d w := ⟨rfl, leads_refl d w⟩
  obtain ⟨lines, left, hflat, hne, hr⟩ :=
    hgoing.runFor hd (a.length + 1) ha ht (Nat.lt_succ_self _)
  obtain ⟨lines', left', hflat', hne', hr'⟩ :=
    hgoing.runFor hd (b.length + 1) hb ht (Nat.lt_succ_self _)
  change r = _ at hr
  change r' = _ at hr'
  change errText .session r.outputs = [] at h
  rw [hr] at h
  have hs : (s.deliver d lines).session.Shadows _ (s.deliver d lines).outputs
      (Run.of d w (lines.flatMap lineCalls)) := hfresh.deliver hself lines (Or.inl h)
  obtain ⟨hclean, hworld, hv, ho⟩ := Run.clean_of_flatten hself hw hne hne'
    (hflat'.trans hflat.symm) hs.clean
  have hs' : (s.deliver d lines').session.Shadows _ (s.deliver d lines').outputs
      (Run.of d w (lines'.flatMap lineCalls)) := hfresh.deliver hself lines' (Or.inr hclean)
  have hresults : outs .session (s.deliver d lines').outputs =
      outs .session (s.deliver d lines).outputs := by
    rw [hs'.results, hv, hs.results]
  have hwords : outs .dispatcher (s.deliver d lines').outputs =
      outs .dispatcher (s.deliver d lines).outputs := by
    rw [hs'.words, ho, hs.words]
  rw [hr, hr']
  refine ⟨hs'.errors, hresults, hwords, ?_, fun hq => ?_, ?_, ?_⟩
  · rw [hs'.warnings, ho, hs.warnings]
  · rw [outText_of_quiet hq, outText_of_quiet (hwords.trans hq), hresults]
  · rw [hs'.handed, ho, hs.handed]
  · exact hs'.world.trans (hworld.trans hs.world.symm)

end Lines

/-- A script with no entry that cancels is live. -/
theorem Script.live {s : Script} (h : ∀ e ∈ s.entries, e.cancels = false) :
    Live (some Script.dispatcher) s := by
  intro e he past command
  cases he
  induction past generalizing s with
  | nil =>
    obtain ⟨entries, commands⟩ := s
    cases entries with
    | nil => rfl
    | cons e rest => exact h e (by simp)
  | cons c past ih =>
    refine ih (s := (Script.send c s).2) fun e he => h e ?_
    obtain ⟨entries, commands⟩ := s
    cases entries with
    | nil => exact he
    | cons e rest => exact List.mem_cons_of_mem _ he

/-- The declaration of a variable by a command, a command that is told its value, and a sum. -/
def commandsThenSum : List Token :=
  [⟨"(", []⟩, ⟨"new", []⟩, ⟨"(", []⟩, ⟨"init", []⟩, ⟨"ID", "x"⟩, ⟨"[", []⟩, ⟨"FRAG", "a b"⟩,
    ⟨"]", []⟩, ⟨")", []⟩, ⟨")", []⟩, ⟨"[", []⟩, ⟨"FRAG", "it's "⟩, ⟨"\x7b", []⟩, ⟨"(", []⟩,
    ⟨"exp", []⟩, ⟨"ID", "x"⟩, ⟨")", []⟩, ⟨"\x7d", []⟩, ⟨"]", []⟩, ⟨"(", []⟩, ⟨"PLUS", []⟩,
    ⟨"ID", "x"⟩, ⟨"INT", "1"⟩, ⟨")", []⟩]

/-- A session that reads them with the same separators after each. -/
def commandsThenSumRun (gap : Bytes) : Ran Script :=
  Session.run ((some Script.dispatcher).map Feed.beside) []
    { settings := {}
      table := fun _ _ => []
      world := ⟨commandsThenSum.flatMap fun t => t.text ++ gap, ⟨[{ status := "3" }], []⟩⟩ }

/-- The tokens on one line, and each on a line of its own. -/
theorem Session.line_breaks_irrelevant_commandsThenSum :
    let r := commandsThenSumRun [0x20]
    let r' := commandsThenSumRun [0x20, Bytes.newline, 0x09]
    errText .session r.outputs = [] ∧ outText r.outputs = "=> 3\n=> 0\n=> 4\n" ∧
      r.session.world.rest.commands = ["a b", "it's 3"] ∧
      errText .session r'.outputs = [] ∧ handed r'.outputs = handed r.outputs ∧
      outText r'.outputs = outText r.outputs := by
  have hone : ∀ t ∈ commandsThenSum, t.OneLine := by decide +kernel
  have hshown : errText .session (commandsThenSumRun [0x20]).outputs = [] ∧
      outs .dispatcher (commandsThenSumRun [0x20]).outputs = [] ∧
      outText (commandsThenSumRun [0x20]).outputs = "=> 3\n=> 0\n=> 4\n" ∧
      (commandsThenSumRun [0x20]).session.world.rest.commands = ["a b", "it's 3"] := by
    decide +kernel
  obtain ⟨herr, hquiet, hout, hcommands⟩ := hshown
  have ha : LaidOut commandsThenSum (commandsThenSum.flatMap fun t => t.text ++ [0x20]) :=
    .spaced (by simp) (by simp [IsSeparator]) _
  have hb : LaidOut commandsThenSum
      (commandsThenSum.flatMap fun t => t.text ++ [0x20, Bytes.newline, 0x09]) :=
    .spaced (by simp) (by simp [IsSeparator]) _
  obtain ⟨herr', -, -, -, hsame, hhanded, -⟩ :=
    line_breaks_irrelevant (Script.live (by decide)) rfl (fun _ _ => []) hone ha hb herr
  exact ⟨herr, hout, hcommands, herr', hhanded, hsame hquiet⟩

/-- Two commands that print, with the same separators after each token. -/
def twoEchoes (gap : Bytes) : Bytes :=
  let tokens : List Token := [⟨"[", []⟩, ⟨"FRAG", "echo a"⟩, ⟨"]", []⟩, ⟨"[", []⟩,
    ⟨"FRAG", "echo b"⟩, ⟨"]", []⟩]
  tokens.flatMap fun t => t.text ++ gap

/-- Where commands print to the output of the session, the line breaks tell which results come
before which of their words. -/
theorem Session.shell_words_between_results :
    let r (gap : Bytes) := Session.run (some (Feed.beside (Shell.dispatcher "sh"))) []
      { settings := {}, table := fun _ _ => [], world := ⟨twoEchoes gap, {}⟩ }
    outText (r [0x20]).outputs = "a\nb\n=> 0\n=> 0\n" ∧
      outText (r [Bytes.newline]).outputs = "a\n=> 0\nb\n=> 0\n" ∧
      errText .session (r [0x20]).outputs = [] ∧
      errText .session (r [Bytes.newline]).outputs = [] := by
  decide +kernel

end TokenShell
