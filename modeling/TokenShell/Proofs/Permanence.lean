import TokenShell.Proofs.Queue

/-! What is evaluated is permanent: no call moves, changes or removes it, and its commands stay as
they were handed over. What is ready stays as it is until an evaluation gets to it. -/
namespace TokenShell

variable {σ : Type} {d : Option (Dispatcher σ)}

/-! The texts of commands. -/

/-- A command without code blocks is handed over as the text of its parts. -/
theorem Label.handed_evaluate {l l' : Label} {ks : List Node} {m m' : Machine σ} {b : Bool}
    (hf : l.form = .command b) (hb : ks.any Node.isCodeBlock = false)
    (h : l.evaluate d ks m = (.ok l', m')) :
    ∃ text, Node.commandText ks = .ok text ∧ (l.serial, text) ∈ handed m'.outputs := by
  simp only [evaluate, hf, evaluateCommand, hb, Bool.false_eq_true, if_false] at h
  obtain ⟨text, m₁, ht, h⟩ := run_bind_ok.mp h
  rw [run_lift] at ht
  cases d with
  | none => cases h
  | some d =>
    obtain ⟨_, m₂, hlog, h⟩ := run_bind_ok.mp h
    obtain ⟨answer, m₃, hsend, h⟩ := run_bind_ok.mp h
    obtain ⟨out, ho⟩ : ∃ out, m'.outputs = m₃.outputs ++ out := by
      cases answer with
      | error f => cases h
      | ok line =>
        cases hi : Integer.read (Bytes.trim line) with
        | error e =>
          simp only [hi] at h
          cases h
        | ok i =>
          simp only [hi] at h
          obtain ⟨_, m₄, hend, h⟩ := run_bind_ok.mp h
          cases hend
          cases h
          exact ⟨_, rfl⟩
    have hm₃ : m₃.outputs = m₂.outputs ++ (d.send m₂.cancelled text m₂.world).1.outputs := by
      cases hsend
      rfl
    have hm₂ : m₂.outputs = m₁.outputs ++ [.log (.dispatching l.serial text)] := by
      cases hlog
      rfl
    refine ⟨text, congrArg Prod.fst ht, ?_⟩
    rw [ho, hm₃, hm₂]
    simp [handed, Output.handed?]

theorem Form.outline_eq_command {f : Form} : f.outline = .command false ↔ ∃ b, f = .command b := by
  cases f <;> simp [Form.outline]

namespace Node

theorem isCommand_iff {n : Node} : n.isCommand = true ↔ ∃ b, n.form = .command b := by
  unfold isCommand
  cases n.form <;> simp

variable {n m : Node} {ks js : List Node} {os os' : List Output} {m₁ m₂ : Machine σ}

theorem exists_settles (h : List.Forall₂ Settles ks js) (hn : n ∈ ks) : ∃ j ∈ js, n.Settles j := by
  induction h with
  | nil => cases hn
  | cons hs _ ih =>
    rcases List.mem_cons.mp hn with rfl | hn
    · exact ⟨_, List.mem_cons_self, hs⟩
    · obtain ⟨j, hj, hs⟩ := ih hn
      exact ⟨j, List.mem_cons_of_mem _ hj, hs⟩

theorem serials_settles (h : List.Forall₂ Settles ks js) :
    js.map (·.label.serial) = ks.map (·.label.serial) := by
  induction h with
  | nil => rfl
  | @cons k j _ _ hs _ ih =>
    have hlabel : j.label.outline = k.label.outline := by rw [← label_outline, hs.1, label_outline]
    have hserial : j.label.outline.serial = k.label.outline.serial := congrArg Label.serial hlabel
    rw [List.map_cons, List.map_cons, ih]
    exact congrArg (· :: _) hserial

/-- The commands of a tree that hold no code block have been handed over, as the texts that their
parts make up. -/
def Told (os : List Output) (n : Node) : Prop :=
  ∀ c ∈ n.subtrees, c.isCommand = true → c.kids.any isCodeBlock = false →
    ∃ text, commandText c.kids = .ok text ∧ (c.label.serial, text) ∈ handed os

theorem Told.mono (h : n.Told os) (hsub : ∀ p ∈ handed os, p ∈ handed os') : n.Told os' := by
  intro c hc hcmd hb
  obtain ⟨text, ht, hm⟩ := h c hc hcmd hb
  exact ⟨text, ht, hsub _ hm⟩

theorem Told.append (h : n.Told os) (out : List Output) : n.Told (os ++ out) :=
  h.mono fun p hp => by simp [hp]

theorem told_evaluateAll
    (hk : ∀ k ∈ ks, ∀ m₁ m₂ j, k.evaluate d m₁ = (.ok j, m₂) → j.Told m₂.outputs)
    (h : evaluateAll d ks m₁ = (.ok js, m₂)) : ∀ j ∈ js, j.Told m₂.outputs := by
  induction ks generalizing m₁ js with
  | nil =>
    cases h
    simp
  | cons k ks ih =>
    obtain ⟨j, js, m, hj, hjs, rfl⟩ := evaluateAll_cons_ok.mp h
    obtain ⟨-, out, ho, -⟩ := dispatches_all d ks m
    rw [hjs] at ho
    refine List.forall_mem_cons.mpr ⟨?_, ih (fun i hi => hk i (by simp [hi])) hjs⟩
    rw [ho]
    exact (hk k (by simp) _ _ j hj).append out

/-- An evaluation that succeeds hands over every command that holds no code block. -/
theorem Fresh.told (hn : n.Fresh) (h : n.evaluate d m₁ = (.ok m, m₂)) : m.Told m₂.outputs := by
  induction n using induct generalizing m₁ m₂ m with
  | h l ks ih =>
    obtain ⟨hl, hks⟩ := fresh_mk.mp hn
    obtain ⟨js, inner, before, after, rule, l', hj, ho, hrule, rfl⟩ := evaluate_ok hl h
    have hkids := told_evaluateAll (fun k hk _ _ _ hj => ih k hk (hks k hk) hj) hj
    obtain ⟨-, out, hout, -, -, hsettles⟩ := Label.dispatches_evaluate d rule js after
    rw [hrule] at hout hsettles
    obtain ⟨-, hrules, -⟩ := hsettles l' rfl
    intro c hc hcmd hb
    rcases mem_subtrees_mk.mp hc with rfl | ⟨j, hjm, hc⟩
    · have hserial : l'.outline.serial = rule.outline.serial := congrArg Label.serial hrules
      have hform : l'.form.outline = rule.form.outline := congrArg Label.form hrules
      obtain ⟨b, hf⟩ : ∃ b, rule.form = .command b := by
        obtain ⟨b', hf'⟩ := isCommand_iff.mp hcmd
        exact Form.outline_eq_command.mp (hform.symm.trans (Form.outline_eq_command.mpr ⟨b', hf'⟩))
      obtain ⟨text, ht, hm⟩ := Label.handed_evaluate hf hb hrule
      exact ⟨text, ht, hserial ▸ hm⟩
    · have htold := (hkids j hjm).append out
      rw [← ho, ← hout] at htold
      exact htold c hc hcmd hb

end Node

namespace Progress

variable {m m' : Machine σ} {n : Node} {ns ns' : List Node}

theorem End.outputs {stop : Option Stop} (h : End d m ns ns' m' stop) :
    ∃ out, m'.outputs = m.outputs ++ out := by
  cases h with
  | finished _ _ => exact ⟨[], by simp⟩
  | interrupted _ _ _ => exact ⟨[], by simp⟩
  | @failed n f m₁ _ _ _ _ hn =>
    obtain ⟨-, out, ho, -⟩ := n.dispatches_evaluate d m
    rw [hn] at ho
    exact ⟨out ++ [.log (.evaluationFailed n.text f)], by rw [← List.append_assoc, ← ho]⟩

theorem End.report {f : Failure} (h : End d m (n :: ns) ns' m' (some (.failed f))) :
    .log (.evaluationFailed n.text f) ∈ m'.outputs := by
  cases h with
  | failed _ _ _ _ _ => simp

end Progress

namespace Tree

variable {t u : Tree} {n : Node} {es rs ps : List Node}

/-- The fragments that are evaluated. -/
def finished (t : Tree) : List Node := t.roots.filter (·.flags.evaluated)

theorem filter_evaluated (he : ∀ n ∈ es, n.flags.evaluated = true)
    (hr : ∀ n ∈ rs, n.flags.evaluated = false) : (es ++ rs).filter (·.flags.evaluated) = es := by
  have hes : es.filter (·.flags.evaluated) = es := List.filter_eq_self.mpr he
  have hrs : rs.filter (·.flags.evaluated) = [] :=
    List.filter_eq_nil_iff.mpr fun n hn => by simp [hr n hn]
  rw [List.filter_append, hes, hrs, List.append_nil]

theorem Lined.finished (h : Lined es rs ps) (hf : t.fragments = es ++ rs ++ ps)
    (ho : ∀ n ∈ t.path, n.Opened) : t.finished = es := by
  have hopen := (openFragment_spec t.path).2 fun n hn => (ho n hn).raw
  rw [Tree.finished, roots, hf, List.append_assoc, List.append_assoc]
  refine filter_evaluated (fun n hn => (h.evaluated n hn).2) ?_
  intro n hn
  rcases List.mem_append.mp hn with hn | hn
  · exact (h.ready n hn).2
  · rcases List.mem_append.mp hn with hn | hn
    · exact (h.raw n hn).flags.2
    · exact (hopen n hn).flags.2

theorem Reachable.mem_finished (h : t.Reachable) :
    n ∈ t.finished ↔ n ∈ t.fragments ∧ n.flags.evaluated = true := by
  have hopen := (openFragment_spec t.path).2 fun n hn => (h.sound_fresh.1.opened n hn).raw
  rw [Tree.finished, List.mem_filter, roots, List.mem_append]
  refine and_congr_left fun he => or_iff_left fun hn => ?_
  rw [(hopen n hn).flags.2] at he
  cases he

theorem Reachable.finished_roots (h : t.Reachable) : t.finished <+: t.roots := by
  obtain ⟨⟨es, rs, ps, hf, hl⟩, -⟩ := h.inLine_swept
  rw [hl.finished hf h.sound_fresh.1.opened]
  exact ⟨rs ++ ps ++ (openFragment t.path).toList, by simp [roots, hf]⟩

theorem Unshared.roots (h : t.Unshared) : (t.roots.map (·.label.serial)).Nodup := by
  have hlabel : ∀ n : Node, [n.label].Sublist n.labels := by
    intro n
    obtain ⟨l, ks⟩ := n
    rw [Node.labels_mk]
    exact List.cons_sublist_cons.mpr (List.nil_sublist _)
  have hsub : (t.roots.flatMap fun n => [n.label]).Sublist (t.roots.flatMap Node.labels) :=
    List.Sublist.flatMap_right _ fun n _ => hlabel n
  rw [← List.map_eq_flatMap] at hsub
  have hserials := hsub.map Label.serial
  rw [List.map_map] at hserials
  exact h.distinct.sublist hserials

/-- A child of the root that is taken out is not found again by its number. -/
theorem Unshared.removed (h : t.Unshared) {as as' : List Node} (bs : List Node)
    (ht : t.roots = as ++ n :: bs) (hu : u.roots = as' ++ bs)
    (hs : as'.map (·.label.serial) = as.map (·.label.serial)) :
    ∀ k ∈ u.roots, k.label.serial ≠ n.label.serial := by
  have hroots := h.roots
  rw [ht, List.map_append, List.map_cons, List.nodup_middle, ← hs, ← List.map_append, ← hu,
    List.nodup_cons] at hroots
  intro k hk hserial
  exact hroots.1 (hserial ▸ List.mem_map_of_mem hk)

/-- Without an evaluation the same fragments are evaluated, and the ready ones come first among
those that are ready afterwards. -/
theorem Reachable.edited (h : t.Reachable) (hu : u.Reachable)
    (hready : t.fragments.filter (·.isReady) <+: u.fragments.filter (·.isReady))
    (hold : ∀ n ∈ u.fragments, n.flags.evaluated = true → n ∈ t.fragments) :
    u.finished = t.finished ∧ t.waiting <+: u.waiting := by
  obtain ⟨⟨es, rs, ps, hf, hl⟩, -⟩ := h.inLine_swept
  obtain ⟨⟨es', rs', ps', hf', hl'⟩, -⟩ := hu.inLine_swept
  have ho := h.sound_fresh.1.opened
  have ho' := hu.sound_fresh.1.opened
  obtain ⟨qs, hq⟩ := hready
  rw [hf, hf', (filter_ready hl.all_ready hl.raw).1, (filter_ready hl'.all_ready hl'.raw).1] at hq
  -- An evaluated fragment among the new ones would be there twice.
  have hnew : ∀ q ∈ qs, q.flags.evaluated = false := by
    intro q hqs
    by_contra he
    have he : q.flags.evaluated = true := by simpa using he
    have hnodup : (es ++ rs ++ qs).Nodup := by
      have hroots := hu.unshared.roots.of_map
      rw [roots, hf', ← hq] at hroots
      exact hroots.sublist (by simp)
    have hmem : q ∈ t.fragments := hold q (by simp [hf', ← hq, hqs]) he
    rw [hf] at hmem
    rcases List.mem_append.mp hmem with hmem | hmem
    · exact List.disjoint_of_nodup_append hnodup hmem hqs
    · rw [(hl.raw q hmem).flags.2] at he
      cases he
  rw [List.append_assoc] at hq
  have hes : es = es' := by
    rw [← filter_evaluated (fun n hn => (hl'.evaluated n hn).2) fun n hn => (hl'.ready n hn).2,
      ← hq]
    refine (filter_evaluated (fun n hn => (hl.evaluated n hn).2) ?_).symm
    intro n hn
    exact (List.mem_append.mp hn).elim (fun hn => (hl.ready n hn).2) (hnew n)
  subst hes
  have hrs : rs ++ qs = rs' := List.append_cancel_left hq
  rw [hl.finished hf ho, hl'.finished hf' ho', hl.waiting hf ho, hl'.waiting hf' ho', ← hrs]
  exact ⟨rfl, qs, rfl⟩

theorem Sound.ready_reset (h : t.Sound) :
    t.fragments.filter (·.isReady) <+: t.reset.tree.fragments.filter (·.isReady) := by
  rw [reset_fragments h.opened, List.filter_filter]
  simp

theorem Sound.ready_insert (h : t.Sound) (tok : Token) :
    t.fragments.filter (·.isReady) <+: (t.insert tok).tree.fragments.filter (·.isReady) := by
  obtain ⟨hr, -, hg⟩ := h.grown
  obtain ⟨extra, ⟨⟨qs, ps, hf, hq, hraw, -⟩, hopened⟩, -⟩ :=
    hg.tick.place hr (placed_place { t with clock := t.clock + 1 } tok)
  have hall : ∀ n ∈ t.fragments.filter (·.isReady) ++ qs, n.isReady = true := fun n hn =>
    (List.mem_append.mp hn).elim (hr n) (hq n)
  rcases insert_tree t tok with ⟨-, ht, -⟩ | ⟨f, -, ht, -⟩
  · rw [ht, hf, (filter_ready hall hraw).1]
    exact List.prefix_append _ _
  · rw [ht, reset_fragments hopened, hf, (filter_ready hall hraw).1, List.filter_eq_self.mpr hall]
    exact List.prefix_append _ _

end Tree

/-- What can become of a ready fragment that an evaluation gets to: it is evaluated, and else as it
was; or it fails, which is reported, and is removed. -/
def Evaluated.Concludes (e : Evaluated σ) (n : Node) : Prop :=
  (∃ n' ∈ e.tree.finished, n.Settles n') ∨
  ∃ f, e.stop = some (.failed f) ∧ .log (.evaluationFailed n.text f) ∈ e.outputs ∧
    ∀ k ∈ e.tree.roots, k.label.serial ≠ n.label.serial

namespace Tree

variable {t : Tree}

/-- An evaluation goes on from the evaluated fragments, and brings a ready one to its end or leaves
it as it is. -/
theorem Reachable.evaluates (h : t.Reachable) (d : Option (Dispatcher σ)) (w : σ) (cancelled : Bool)
    (interrupts : List Bool) :
    let e := t.evaluate d w cancelled interrupts
    t.finished <+: e.tree.finished ∧ ∀ n ∈ t.waiting, n ∈ e.tree.waiting ∨ e.Concludes n := by
  intro e
  obtain ⟨⟨es, rs, ps, hf, hl⟩, -⟩ := h.inLine_swept
  have ho := h.sound_fresh.1.opened
  obtain ⟨done, done', left, left', m', m'', stop, rfl, -, hsettles, hend, hof, hl', hleft⟩ :=
    hl.passes d interrupts ⟨[t.globals], w, cancelled, []⟩
  rw [← hf] at hof
  have hfrag : e.tree.fragments = es ++ done' ++ left' ++ ps := by simp [e, Tree.evaluate, hof]
  have hstop : e.stop = stop := by simp [e, Tree.evaluate, hof]
  have hout : e.outputs = m''.outputs := by simp [e, Tree.evaluate, hof]
  have hfinished : e.tree.finished = es ++ done' := hl'.finished hfrag ho
  rw [hl.finished hf ho, hfinished, hl.waiting hf ho, hl'.waiting hfrag ho]
  refine ⟨List.prefix_append _ _, fun n hn => ?_⟩
  rcases List.mem_append.mp hn with hn | hn
  · obtain ⟨n', hn', hs⟩ := Node.exists_settles hsettles hn
    exact Or.inr (Or.inl ⟨n', by simp [hfinished, hn'], hs⟩)
  · cases stop with
    | none =>
      rw [hleft.1] at hn
      cases hn
    | some s =>
      cases s with
      | cancelled =>
        rw [show left' = left from hleft]
        exact Or.inl hn
      | failed f =>
        obtain ⟨k, rfl⟩ := hleft
        rcases List.mem_cons.mp hn with rfl | hn
        · refine Or.inr (Or.inr ⟨f, hstop, hout ▸ hend.report, ?_⟩)
          have hpath : e.tree.path = t.path := rfl
          have hserials :
              (es ++ done').map (·.label.serial) = (es ++ done).map (·.label.serial) := by
            rw [List.map_append, List.map_append, Node.serials_settles hsettles]
          refine h.unshared.removed (left' ++ ps ++ (openFragment t.path).toList) ?_ ?_ hserials
          · simp [roots, hf]
          · simp [roots, hfrag, hpath]
        · exact Or.inl hn

end Tree

namespace Run

/-- What one call makes of the evaluated fragments and of the ready ones. -/
theorem step_frozen (d : Option (Dispatcher σ)) (w : σ) (cs : List Call) (c : Call) :
    (of d w cs).tree.finished <+: (of d w (cs ++ [c])).tree.finished ∧
    ∀ n ∈ (of d w cs).tree.waiting, n ∈ (of d w (cs ++ [c])).tree.waiting ∨
      ∃ cancelled interrupts, c = .evaluate cancelled interrupts ∧
        ((of d w cs).tree.evaluate d (of d w cs).world cancelled interrupts).Concludes n := by
  have hr := reachable d w cs
  have hr' := reachable d w (cs ++ [c])
  obtain ⟨hsound, hfresh⟩ := hr.sound_fresh
  rw [of_concat] at hr' ⊢
  cases c with
  | insert tok =>
    obtain ⟨hf, hw⟩ := hr.edited hr' (hsound.ready_insert tok)
      (Tree.carries_insert hfresh hsound tok).evaluated
    exact ⟨hf ▸ List.prefix_rfl, fun n hn => Or.inl (hw.subset hn)⟩
  | reset =>
    obtain ⟨hf, hw⟩ := hr.edited hr' hsound.ready_reset
      (Tree.carries_reset hfresh hsound.opened).evaluated
    exact ⟨hf ▸ List.prefix_rfl, fun n hn => Or.inl (hw.subset hn)⟩
  | evaluate cancelled interrupts =>
    obtain ⟨hf, hw⟩ := hr.evaluates d (of d w cs).world cancelled interrupts
    exact ⟨hf, fun n hn => (hw n hn).imp_right fun hc => ⟨cancelled, interrupts, rfl, hc⟩⟩

/-- The commands of the evaluated fragments have been handed over as they are. -/
theorem told (d : Option (Dispatcher σ)) (w : σ) (cs : List Call) :
    ∀ n ∈ (of d w cs).tree.fragments, n.flags.evaluated = true → n.Told (of d w cs).outputs := by
  induction cs using List.reverseRecOn with
  | nil => simp [of]
  | append_singleton cs c ih =>
    have hr := reachable d w cs
    obtain ⟨hsound, hfresh⟩ := hr.sound_fresh
    rw [of_concat]
    intro n hn he
    cases c with
    | insert tok => exact ih n ((Tree.carries_insert hfresh hsound tok).evaluated n hn he) he
    | reset => exact ih n ((Tree.carries_reset hfresh hsound.opened).evaluated n hn he) he
    | evaluate cancelled interrupts =>
      obtain ⟨⟨es, rs, ps, hf, hl⟩, -⟩ := hr.inLine_swept
      obtain ⟨done, done', left, left', m', m'', stop, rfl, hz, -, hend, hof, hl', -⟩ :=
        hl.passes d interrupts ⟨[(of d w cs).tree.globals], (of d w cs).world, cancelled, []⟩
      rw [← hf] at hof
      simp only [step, Tree.evaluate, hof] at hn ⊢
      rcases List.mem_append.mp hn with hn | hn
      · rcases List.mem_append.mp hn with hn | hn
        · rcases List.mem_append.mp hn with hn | hn
          · exact (ih n (by simp [hf, hn]) he).append _
          · obtain ⟨out, ho⟩ := hend.outputs
            have hdone : ∀ k ∈ done, k.Fresh := fun k hk =>
              hfresh.fragments k (by simp [hf, hk]) (hl.ready k (by simp [hk])).2
            have htold := Node.told_evaluateAll (fun k hk _ _ _ hj => (hdone k hk).told hj) hz n hn
            refine htold.mono fun p hp => ?_
            simp [ho, hp]
        · rw [(hl'.ready n hn).2] at he
          cases he
      · rw [(hl.raw n hn).flags.2] at he
        cases he

/-- A command of an evaluated fragment is in the log with one text, that of its parts. -/
theorem handed_finished (d : Option (Dispatcher σ)) (w : σ) (cs : List Call) {n c : Node}
    (hn : n ∈ (of d w cs).tree.finished) (hc : c ∈ n.subtrees) (hcmd : c.isCommand = true)
    (hb : c.kids.any Node.isCodeBlock = false) :
    ∃ text, Node.commandText c.kids = .ok text ∧
      ∀ text', (c.label.serial, text') ∈ handed (of d w cs).outputs ↔ text' = text := by
  have horderly := orderly d w cs
  obtain ⟨past, hl⟩ := horderly.ledger
  have hnodup : (dispatched (of d w cs).outputs).Nodup :=
    (horderly.distinct.sublist (List.sublist_append_left _ _)).sublist
      (hl.spent.trans ((List.sublist_append_left _ _).trans hl.order))
  obtain ⟨hn, he⟩ := (reachable d w cs).mem_finished.mp hn
  obtain ⟨text, ht, hm⟩ := told d w cs n hn he c hc hcmd hb
  refine ⟨text, ht, fun text' => ⟨fun hm' => ?_, fun h => h ▸ hm⟩⟩
  exact congrArg Prod.snd (List.inj_on_of_nodup_map hnodup hm' hm rfl)

theorem finished_frozen (d : Option (Dispatcher σ)) (w : σ) (pre post : List Call) :
    (of d w pre).tree.finished <+: (of d w (pre ++ post)).tree.finished := by
  induction post using List.reverseRecOn with
  | nil => simp
  | append_singleton post c ih =>
    rw [← List.append_assoc]
    exact ih.trans (step_frozen d w (pre ++ post) c).1

/-- A ready fragment stays one until an evaluation concludes it. -/
theorem waiting_frozen (d : Option (Dispatcher σ)) (w : σ) (pre post : List Call) {n : Node}
    (hn : n ∈ (of d w pre).tree.waiting) :
    n ∈ (of d w (pre ++ post)).tree.waiting ∨
    ∃ mid cancelled interrupts rest, post = mid ++ .evaluate cancelled interrupts :: rest ∧
      n ∈ (of d w (pre ++ mid)).tree.waiting ∧
      ((of d w (pre ++ mid)).tree.evaluate d (of d w (pre ++ mid)).world cancelled
        interrupts).Concludes n := by
  induction post using List.reverseRecOn with
  | nil => exact Or.inl (by simpa using hn)
  | append_singleton post c ih =>
    rcases ih with hw | ⟨mid, cancelled, interrupts, rest, rfl, hw, hc⟩
    · rw [← List.append_assoc]
      refine ((step_frozen d w (pre ++ post) c).2 n hw).imp_right ?_
      rintro ⟨cancelled, interrupts, rfl, hc⟩
      exact ⟨post, cancelled, interrupts, [], rfl, hw, hc⟩
    · exact Or.inr ⟨mid, cancelled, interrupts, rest ++ [c], by simp, hw, hc⟩

/-- An evaluated fragment keeps its place and all its nodes whatever follows, and its commands were
handed over as they stand. A ready one is the same until it is evaluated or removed. -/
theorem fragments_frozen (d : Option (Dispatcher σ)) (w : σ) (pre post : List Call) :
    (of d w pre).tree.finished <+: (of d w pre).tree.roots ∧
    (of d w pre).tree.finished <+: (of d w (pre ++ post)).tree.roots ∧
    (∀ n ∈ (of d w pre).tree.finished, ∀ c ∈ n.subtrees, c.isCommand = true →
      c.kids.any Node.isCodeBlock = false →
      ∃ text, Node.commandText c.kids = .ok text ∧
        ∀ text', ((c.label.serial, text') ∈ handed (of d w pre).outputs ↔ text' = text) ∧
          ((c.label.serial, text') ∈ handed (of d w (pre ++ post)).outputs ↔ text' = text)) ∧
    ∀ n ∈ (of d w pre).tree.waiting, n ∈ (of d w (pre ++ post)).tree.waiting ∨
      ∃ mid cancelled interrupts rest, post = mid ++ .evaluate cancelled interrupts :: rest ∧
        n ∈ (of d w (pre ++ mid)).tree.waiting ∧
        ((of d w (pre ++ mid)).tree.evaluate d (of d w (pre ++ mid)).world cancelled
          interrupts).Concludes n := by
  have hstays := finished_frozen d w pre post
  refine ⟨(reachable d w pre).finished_roots,
    hstays.trans (reachable d w (pre ++ post)).finished_roots, ?_,
    fun n hn => waiting_frozen d w pre post hn⟩
  intro n hn c hc hcmd hb
  obtain ⟨text, ht, hpre⟩ := handed_finished d w pre hn hc hcmd hb
  obtain ⟨text₂, ht₂, hpost⟩ := handed_finished d w (pre ++ post) (hstays.subset hn) hc hcmd hb
  obtain rfl : text = text₂ := by
    rw [ht] at ht₂
    exact Except.ok.inj ht₂
  exact ⟨text, ht, fun text' => ⟨hpre text', hpost text'⟩⟩

/-- A name, a command that holds its value, both evaluated, and a quotient by zero that is ready. -/
def commandWithName : List Call :=
  [.insert ⟨"(", []⟩, .insert ⟨"new", []⟩, .insert ⟨"(", []⟩, .insert ⟨"init", []⟩,
    .insert ⟨"ID", "x"⟩, .insert ⟨"STR", "a"⟩, .insert ⟨")", []⟩, .insert ⟨")", []⟩,
    .insert ⟨"[", []⟩, .insert ⟨"FRAG", "echo "⟩, .insert ⟨"\x7b", []⟩, .insert ⟨"(", []⟩,
    .insert ⟨"exp", []⟩, .insert ⟨"ID", "x"⟩, .insert ⟨")", []⟩, .insert ⟨"\x7d", []⟩,
    .insert ⟨"]", []⟩, .evaluate false [],
    .insert ⟨"(", []⟩, .insert ⟨"SLASH", []⟩, .insert ⟨"INT", "1"⟩, .insert ⟨"INT", "0"⟩,
    .insert ⟨")", []⟩]

/-- An evaluation that fails, a new value for the name, a token that is refused, and a reset. -/
def renewalOfName : List Call :=
  [.evaluate false [], .insert ⟨"(", []⟩, .insert ⟨"renew", []⟩, .insert ⟨"(", []⟩,
    .insert ⟨"init", []⟩, .insert ⟨"ID", "x"⟩, .insert ⟨"STR", "b"⟩, .insert ⟨")", []⟩,
    .insert ⟨")", []⟩, .evaluate false [], .insert ⟨"]", []⟩, .reset]

theorem fragments_frozen_renewalOfName :
    let r := of (some Script.dispatcher) ⟨[], []⟩ commandWithName
    let r' := of (some Script.dispatcher) ⟨[], []⟩ (commandWithName ++ renewalOfName)
    r.tree.globals.get? "x" = some (.str "a") ∧ r'.tree.globals.get? "x" = some (.str "b") ∧
    r.tree.finished.length = 2 ∧ r.tree.finished <+: r'.tree.roots ∧
    (∃ n ∈ r.tree.finished, ∃ c ∈ n.subtrees, Node.commandText c.kids = .ok "echo a" ∧
      ∀ text, (c.label.serial, text) ∈ handed r'.outputs ↔ text = "echo a") ∧
    ∃ n ∈ r.tree.waiting, ∃ mid cancelled interrupts rest,
      renewalOfName = mid ++ .evaluate cancelled interrupts :: rest ∧
      ((of (some Script.dispatcher) ⟨[], []⟩ (commandWithName ++ mid)).tree.evaluate
        (some Script.dispatcher)
        (of (some Script.dispatcher) ⟨[], []⟩ (commandWithName ++ mid)).world cancelled
        interrupts).Concludes n := by
  intro r r'
  obtain ⟨-, hroots, htexts, hready⟩ :=
    fragments_frozen (some Script.dispatcher) ⟨[], []⟩ commandWithName renewalOfName
  have hcommand : ∃ n ∈ r.tree.finished, ∃ c ∈ n.subtrees, c.isCommand = true ∧
      c.kids.any Node.isCodeBlock = false ∧
      (Node.commandText c.kids).toOption = some ("echo a" : Bytes) := by
    decide +kernel
  have hwaiting : r.tree.waiting.length = 1 ∧ r'.tree.waiting.length = 0 := by decide +kernel
  refine ⟨by decide +kernel, by decide +kernel, by decide +kernel, hroots, ?_, ?_⟩
  · obtain ⟨n, hn, c, hc, hcmd, hb, hecho⟩ := hcommand
    obtain ⟨text, ht, hiff⟩ := htexts n hn c hc hcmd hb
    obtain rfl : text = "echo a" := by
      rw [ht] at hecho
      exact Option.some.inj hecho
    exact ⟨n, hn, c, hc, ht, fun text => (hiff text).2⟩
  · obtain ⟨n, hn⟩ := List.exists_mem_of_length_pos (Nat.lt_of_lt_of_eq Nat.one_pos hwaiting.1.symm)
    rcases hready n hn with hw | ⟨mid, cancelled, interrupts, rest, hpost, -, hc⟩
    · have hlen := List.length_pos_of_mem hw
      rw [hwaiting.2] at hlen
      cases hlen
    · exact ⟨n, hn, mid, cancelled, interrupts, rest, hpost, hc⟩

end Run

end TokenShell
