import TokenShell.Proofs.Cascade
import TokenShell.Tree.Progress

/-! Evaluation: what it leaves of a tree and of the scopes, and which commands it hands to the
dispatcher. -/
namespace TokenShell

/-- A form without what evaluation changes. -/
def Form.outline : Form → Form
  | .block kind scope => .block kind scope.outline
  | .command _ => .command false
  | form => form

namespace Label

/-- What evaluation leaves alone. -/
def outline (l : Label) : Label :=
  { l with form := l.form.outline, flags := { l.flags with evaluated := false }, result := .nil }

theorem outline_withResult (l : Label) (v : Value) : (l.withResult v).outline = l.outline := rfl

theorem origin_outline (l : Label) : l.outline.origin = l.origin := by
  simp only [outline, origin]
  cases l.form <;> rfl

/-- The command that the label of a node with these children hands over. -/
def due (l : Label) (ks : List Node) : List Nat :=
  match l.form with
  | .command _ => if ks.any Node.isCodeBlock then [] else [l.serial]
  | _ => []

end Label

namespace Node

/-- A tree without what evaluation changes. -/
def outline (n : Node) : Node := n.fold fun l ks => mk l.outline ks

theorem outline_mk (l : Label) (ks : List Node) :
    (mk l ks).outline = mk l.outline (ks.map outline) := by
  rw [outline, fold_mk]
  rfl

theorem origin_outline (n : Node) : n.outline.origin = n.origin := by
  induction n using induct with
  | h l ks ih =>
    rw [outline_mk, origin_mk, origin_mk, Label.origin_outline, List.map_map]
    exact congrArg _ (List.map_congr_left ih)

theorem fold_origin {α : Type} {g : Label → List α → α} (hg : ∀ l, g l.origin = g l) (n : Node) :
    n.origin.fold g = n.fold g := by
  induction n using induct with
  | h l ks ih =>
    rw [origin_mk, fold_mk, fold_mk, hg, List.map_map]
    exact congrArg _ (List.map_congr_left ih)

/-- Evaluation changes nothing that a faithful fold sees. -/
theorem fold_outline {β : Type} {w : Label → List β} {g : Label → List (List β) → List β}
    (hg : Faithful w g) {n m : Node} (h : m.outline = n.outline) : m.fold g = n.fold g := by
  have ho : m.origin = n.origin := by rw [← origin_outline, h, origin_outline]
  rw [← fold_origin hg.origin, ho, fold_origin hg.origin]

theorem isCodeBlock_outline (n : Node) : n.outline.isCodeBlock = n.isCodeBlock := by
  obtain ⟨l, ks⟩ := n
  rw [outline_mk]
  simp only [isCodeBlock, form_mk, Label.outline]
  cases hf : l.form with
  | block kind scope => cases kind <;> rfl
  | _ => rfl

mutual

/-- The commands that evaluating a tree hands over, in order. -/
def due : Node → List Nat
  | mk l ks => if l.flags.evaluated then [] else dueAll ks ++ l.due ks

def dueAll : List Node → List Nat
  | [] => []
  | n :: ns => n.due ++ dueAll ns

end

theorem dueAll_eq (ks : List Node) : dueAll ks = ks.flatMap due := by
  induction ks with
  | nil => rfl
  | cons k ks ih => rw [dueAll, ih, List.flatMap_cons]

end Node

/-- The node that is handed over and the text of its command. -/
def Output.handed? : Output → Option (Nat × Bytes)
  | .log (.dispatching serial command) => some (serial, command)
  | _ => none

def handed (os : List Output) : List (Nat × Bytes) := os.filterMap Output.handed?

/-- The command nodes handed over, in order. -/
def dispatched (os : List Output) : List Nat := (handed os).map Prod.fst

@[simp] theorem handed_append (a b : List Output) : handed (a ++ b) = handed a ++ handed b := by
  simp [handed]

@[simp] theorem dispatched_append (a b : List Output) :
    dispatched (a ++ b) = dispatched a ++ dispatched b := by
  simp [dispatched]

theorem handed_outputs (r : Reply) : handed r.outputs = [] := by
  refine List.filterMap_eq_nil_iff.mpr ?_
  intro o ho
  obtain ⟨n, -, rfl⟩ := List.mem_map.mp ho
  cases n <;> rfl

/-- What becomes of the dispatcher's state when just these commands are sent. -/
inductive Sent {σ : Type} (d : Option (Dispatcher σ)) : σ → List Bytes → σ → Prop where
  | nil (w : σ) : Sent d w [] w
  | cons {e c w cs w'} (hd : d = some e) (cancelled : Bool)
      (h : Sent d (e.send cancelled c w).2 cs w') : Sent d w (c :: cs) w'

theorem Sent.append {σ : Type} {d : Option (Dispatcher σ)} {w w' w'' : σ} {a b : List Bytes}
    (h : Sent d w a w') (h' : Sent d w' b w'') : Sent d w (a ++ b) w'' := by
  induction h with
  | nil _ => exact h'
  | cons hd c _ ih => exact .cons hd c (ih h')

theorem Scopes.outline_modifyLevel (ss : Scopes) (k : Nat) {f : Scope → Scope}
    (hf : ∀ s, ss.level? k = some s → (f s).outline = s.outline) :
    (ss.modifyLevel k f).map Scope.outline = ss.map Scope.outline := by
  induction ss with
  | nil => rfl
  | cons s outer ih =>
    rw [modifyLevel]
    rw [level?] at hf
    split
    · next h =>
      rw [if_pos h] at hf
      rw [List.map_cons, List.map_cons, hf s rfl]
    · next h =>
      rw [if_neg h] at hf
      rw [List.map_cons, List.map_cons, ih hf]

theorem Scopes.keys_of_outline {ss us : Scopes}
    (h : ss.map Scope.outline = us.map Scope.outline) : ss.map Scope.keys = us.map Scope.keys := by
  have hk := congrArg (List.map Scope.keys) h
  rwa [List.map_map, List.map_map] at hk

/-- Work that hands over at most the given command nodes in order, all if it succeeds. The
dispatcher gets what the log says, and scopes change only in what they store. -/
def Dispatches {σ α : Type} (d : Option (Dispatcher σ)) (work : Evaluation σ α) (all : List Nat)
    (post : α → Prop) : Prop :=
  ∀ m, (work m).2.scopes.map Scope.outline = m.scopes.map Scope.outline ∧
    ∃ out, (work m).2.outputs = m.outputs ++ out ∧
      Sent d m.world ((handed out).map Prod.snd) (work m).2.world ∧
      (dispatched out).Sublist all ∧ ∀ a, (work m).1 = .ok a → dispatched out = all ∧ post a

namespace Dispatches

variable {σ α β : Type} {d : Option (Dispatcher σ)} {x : Evaluation σ α} {f : α → Evaluation σ β}
  {all more : List Nat} {P : α → Prop} {Q : β → Prop}

theorem pure {a : α} (h : P a) : Dispatches d (pure a : Evaluation σ α) [] P := by
  intro m
  refine ⟨rfl, [], by simp [run_pure], .nil _, .slnil, ?_⟩
  intro b hb
  cases hb
  exact ⟨rfl, h⟩

theorem fail (l : Label) (c : Cause) :
    Dispatches d (Evaluation.fail l c : Evaluation σ α) all P := by
  intro m
  exact ⟨rfl, [], by simp [Evaluation.fail], .nil _, List.nil_sublist _, fun a ha => by cases ha⟩

theorem throw (e : Failure) : Dispatches d (throw e : Evaluation σ α) all P := by
  intro m
  exact ⟨rfl, [], (List.append_nil _).symm, .nil _, List.nil_sublist _, fun a ha => by cases ha⟩

theorem emit (e : Event) (h : Output.handed? (.log e) = none) :
    Dispatches d (Evaluation.emit e : Evaluation σ Unit) [] fun _ => True := by
  have hn : handed [.log e] = [] := List.filterMap_eq_nil_iff.mpr (by simpa using h)
  intro m
  refine ⟨rfl, [.log e], rfl, ?_, ?_, fun _ _ => ⟨?_, trivial⟩⟩
  · rw [hn]
    exact .nil _
  · rw [dispatched, hn]
    exact .slnil
  · rw [dispatched, hn]
    rfl

theorem read (k : Nat) (name : Bytes) :
    Dispatches d (Evaluation.read k name : Evaluation σ (Option Value)) [] fun _ => True := by
  intro m
  exact ⟨rfl, [], by simp [Evaluation.read], .nil _, .slnil, fun _ _ => ⟨rfl, trivial⟩⟩

/-- The log entry and the call of the dispatcher belong together. -/
theorem handOver (e : Dispatcher σ) (serial : Nat) (command : Bytes) :
    Dispatches (some e)
      (do Evaluation.emit (.dispatching serial command); Evaluation.dispatch e command) [serial]
      fun _ => True := by
  intro m
  have ho := handed_outputs (e.send m.cancelled command m.world).1
  refine ⟨rfl, .log (.dispatching serial command) :: (e.send m.cancelled command m.world).1.outputs,
    ?_, ?_, ?_, fun _ _ => ⟨?_, trivial⟩⟩
  · rw [run_bind]
    simp [Evaluation.emit, Evaluation.dispatch]
  · rw [handed, List.filterMap_cons, ← handed, ho]
    exact .cons rfl m.cancelled (.nil _)
  · rw [dispatched, handed, List.filterMap_cons, ← handed, ho]
    exact .refl _
  · rw [dispatched, handed, List.filterMap_cons, ← handed, ho]
    rfl

theorem lift (x : Except Failure α) :
    Dispatches d (liftM x : Evaluation σ α) [] fun _ => True := by
  intro m
  rw [run_lift]
  exact ⟨rfl, [], by simp, .nil _, .slnil, fun _ _ => ⟨rfl, trivial⟩⟩

theorem bind (hx : Dispatches d x all P) (hf : ∀ a, P a → Dispatches d (f a) more Q) :
    Dispatches d (x >>= f) (all ++ more) Q := by
  intro m
  obtain ⟨hs, out, ho, hw, hsub, hall⟩ := hx m
  rw [run_bind]
  rcases hm : x m with ⟨_ | a, m'⟩
  · rw [hm] at hs ho hw
    exact ⟨hs, out, ho, hw, hsub.trans (List.sublist_append_left _ _), fun a ha => by cases ha⟩
  · rw [hm] at hs ho hw hall
    obtain ⟨ha, hp⟩ := hall a rfl
    obtain ⟨hs', out', ho', hw', hsub', hall'⟩ := hf a hp m'
    refine ⟨hs'.trans hs, out ++ out', ?_, ?_, ?_, ?_⟩
    · rw [← List.append_assoc, ← ho]
      exact ho'
    · rw [handed_append, List.map_append]
      exact hw.append hw'
    · rw [dispatched_append, ha]
      exact (List.Sublist.refl _).append hsub'
    · intro b hb
      obtain ⟨h1, h2⟩ := hall' b hb
      exact ⟨by rw [dispatched_append, ha, h1], h2⟩

theorem write (k : Nat) (name : Bytes) (v : Value) :
    Dispatches d (Evaluation.write k name v : Evaluation σ Bool) [] fun _ => True := by
  intro m
  unfold Evaluation.write
  split
  · next s hs =>
    split
    · next hd =>
      refine ⟨m.scopes.outline_modifyLevel k fun u hu => ?_, [], by simp, .nil _, .slnil,
        fun _ _ => ⟨rfl, trivial⟩⟩
      obtain rfl := Option.some.inj (hs.symm.trans hu)
      exact Scope.outline_bind hd v
    · exact ⟨rfl, [], by simp, .nil _, .slnil, fun _ _ => ⟨rfl, trivial⟩⟩
  · exact ⟨rfl, [], by simp, .nil _, .slnil, fun _ _ => ⟨rfl, trivial⟩⟩

theorem inside (scope : Scope) (hx : Dispatches d x all P) :
    Dispatches d (Evaluation.inside scope x) all fun p => P p.1 ∧ p.2.outline = scope.outline := by
  intro m
  obtain ⟨hs, out, ho, hw, hsub, hall⟩ := hx { m with scopes := scope :: m.scopes }
  unfold Evaluation.inside
  rcases hm : x { m with scopes := scope :: m.scopes } with ⟨e | a, ⟨ss, w, c, os⟩⟩
  · rw [hm] at hs ho hw
    refine ⟨?_, out, ho, hw, hsub, fun a ha => by cases ha⟩
    simpa using congrArg (List.drop 1) hs
  · rw [hm] at hs ho hw hall
    cases ss with
    | nil => simp at hs
    | cons s outer =>
      simp only [List.map_cons, List.cons.injEq] at hs
      refine ⟨hs.2, out, ho, hw, hsub, ?_⟩
      intro b hb
      cases hb
      exact ⟨(hall a rfl).1, (hall a rfl).2, hs.1⟩

end Dispatches

namespace Label

variable {σ : Type} {d : Option (Dispatcher σ)}

/-- The result of a label that was evaluated. -/
def Settles (l m : Label) : Prop := m.outline = l.outline ∧ m.flags = l.flags

theorem dispatches_withResult (l : Label) (v : Value) :
    Dispatches d (pure (l.withResult v) : Evaluation σ Label) [] l.Settles :=
  .pure ⟨l.outline_withResult v, rfl⟩

theorem dispatches_evaluateOperator (l : Label) (ks : List Node) :
    Dispatches d (l.evaluateOperator ks : Evaluation σ Label) [] l.Settles := by
  unfold evaluateOperator
  dsimp only
  split
  · split
    · exact l.dispatches_withResult _
    · split
      · exact l.dispatches_withResult _
      · exact .fail _ _
    · split
      · exact l.dispatches_withResult _
      · exact .fail _ _
    · exact .fail _ _
    · exact .fail _ _
  · exact .fail _ _

theorem dispatches_evaluateVariable (l : Label) :
    Dispatches d (l.evaluateVariable : Evaluation σ Label) [] l.Settles := by
  unfold evaluateVariable
  split
  · rw [← List.append_nil []]
    refine (Dispatches.read _ _).bind fun v _ => ?_
    cases v with
    | some v => exact l.dispatches_withResult v
    | none => exact .fail _ _
  · exact .fail _ _
  · exact .pure ⟨rfl, rfl⟩

theorem dispatches_evaluateInitializer (l : Label) (ks : List Node) :
    Dispatches d (l.evaluateInitializer ks : Evaluation σ Label) [] l.Settles := by
  unfold evaluateInitializer
  split
  · exact .fail _ _
  · dsimp only
    split
    · rw [← List.append_nil []]
      refine (Dispatches.write _ _ _).bind fun b _ => ?_
      cases b with
      | true => exact l.dispatches_withResult _
      | false => exact .fail _ _
    · exact .fail _ _

theorem dispatches_evaluateFirst (l : Label) (ks : List Node) :
    Dispatches d (l.evaluateFirst ks : Evaluation σ Label) [] l.Settles := by
  unfold evaluateFirst
  split
  · exact l.dispatches_withResult _
  · exact .fail _ _

/-- A command is handed over once, and not at all if it holds a code block. -/
theorem dispatches_evaluateCommand (l : Label) (ks : List Node) {b : Bool}
    (hl : l.form = .command b) :
    Dispatches d (l.evaluateCommand d ks) (l.due ks) l.Settles := by
  unfold evaluateCommand due
  rw [hl]
  dsimp only
  split
  · rw [← List.append_nil []]
    refine (Dispatches.emit _ rfl).bind fun _ _ => .pure ⟨?_, rfl⟩
    simp [outline, hl, Form.outline]
  · show Dispatches _ _ ([] ++ [l.serial]) _
    refine (Dispatches.lift _).bind fun command _ => ?_
    cases d with
    | none => exact .fail _ _
    | some d =>
      dsimp only
      rw [← bind_assoc, ← List.append_nil [l.serial]]
      refine (Dispatches.handOver d l.serial command).bind fun r _ => ?_
      cases r with
      | error f => exact .throw _
      | ok line =>
        dsimp only
        split
        · exact .throw _
        · rw [← List.append_nil []]
          exact (Dispatches.emit _ rfl).bind fun _ _ => l.dispatches_withResult _

theorem dispatches_evaluate (d : Option (Dispatcher σ)) (l : Label) (ks : List Node) :
    Dispatches d (l.evaluate d ks) (l.due ks) l.Settles := by
  have hnil : (∀ b, l.form ≠ .command b) → l.due ks = [] := by
    intro h
    unfold due
    split
    · next b hf => exact (h b hf).elim
    · rfl
  unfold evaluate
  split
  · next hf =>
    rw [hnil (by simp [hf])]
    exact l.dispatches_withResult _
  · next hf =>
    rw [hnil (by simp [hf])]
    exact l.dispatches_evaluateVariable
  · next hf =>
    rw [hnil (by simp [hf])]
    exact l.dispatches_evaluateOperator ks
  · next hf =>
    rw [hnil (by simp [hf])]
    exact l.dispatches_evaluateFirst ks
  · next hf =>
    rw [hnil (by simp [hf])]
    exact l.dispatches_evaluateFirst ks
  · next hf =>
    rw [hnil (by simp [hf])]
    exact l.dispatches_withResult _
  · next hf =>
    rw [hnil (by simp [hf])]
    exact l.dispatches_withResult _
  · next hf => exact l.dispatches_evaluateCommand ks hf
  · next hf =>
    rw [hnil (by simp [hf])]
    split
    · exact l.dispatches_withResult _
    · exact .fail _ _
  · next hf =>
    rw [hnil (by simp [hf])]
    exact l.dispatches_evaluateInitializer ks

end Label

namespace Node

variable {σ : Type} {d : Option (Dispatcher σ)} {n m : Node} {l : Label} {ks js : List Node}

/-- The result of a tree that was evaluated. -/
def Settles (n m : Node) : Prop :=
  m.outline = n.outline ∧ m.flags = { n.flags with evaluated := true }

/-- Evaluation has a rule for blocks and one for all else. -/
theorem evaluate_cases (d : Option (Dispatcher σ)) (l : Label) (ks : List Node) :
    (l.flags.evaluated = true ∧ (mk l ks).evaluate d = return mk l ks) ∨
    (l.flags.evaluated = false ∧ l.flags.analyzed = false ∧
      (mk l ks).evaluate d = Evaluation.fail l .evaluateBeforeAnalysis) ∨
    (l.flags.evaluated = false ∧ ∃ kind scope, l.form = .block kind scope ∧
      (mk l ks).evaluate d = do
        let (ks, scope) ← Evaluation.inside scope (evaluateAll d ks)
        let l ← { l with form := .block kind scope }.evaluate d ks
        return mk l.markEvaluated ks) ∨
    (l.flags.evaluated = false ∧ (∀ kind scope, l.form ≠ .block kind scope) ∧
      (mk l ks).evaluate d = do
        let ks ← evaluateAll d ks
        let l ← l.evaluate d ks
        return mk l.markEvaluated ks) := by
  rw [evaluate]
  split
  · next he => exact Or.inl ⟨he, rfl⟩
  · next he =>
    have he : l.flags.evaluated = false := by simpa using he
    split
    · next ha => exact Or.inr (Or.inl ⟨he, by simpa using ha, rfl⟩)
    · split
      · next kind scope hf => exact Or.inr (Or.inr (Or.inl ⟨he, kind, scope, hf, rfl⟩))
      · next hb => exact Or.inr (Or.inr (Or.inr ⟨he, hb, rfl⟩))

theorem dispatches_evaluateAll (h : ∀ k ∈ ks, Dispatches d (k.evaluate d) k.due k.Settles) :
    Dispatches d (evaluateAll d ks) (dueAll ks) fun js => js.map outline = ks.map outline := by
  induction ks with
  | nil => exact .pure rfl
  | cons k ks ih =>
    rw [evaluateAll, dueAll, ← List.append_nil (dueAll ks)]
    refine (h k (by simp)).bind fun j hj => ?_
    refine (ih fun i hi => h i (by simp [hi])).bind fun js hjs => ?_
    exact .pure (by rw [List.map_cons, List.map_cons, hj.1, hjs])

theorem any_isCodeBlock (h : js.map outline = ks.map outline) :
    js.any isCodeBlock = ks.any isCodeBlock := by
  have hany : ∀ is : List Node, is.any isCodeBlock = (is.map outline).any isCodeBlock := by
    intro is
    rw [List.any_map]
    exact congrArg is.any (funext fun n => (isCodeBlock_outline n).symm)
  rw [hany, h, ← hany]

theorem settles_markEvaluated {m : Label} (hl : l.Settles m)
    (hk : js.map outline = ks.map outline) : (mk l ks).Settles (mk m.markEvaluated js) := by
  refine ⟨?_, ?_⟩
  · rw [outline_mk, outline_mk, hk, ← hl.1]
    rfl
  · rw [flags_mk, flags_mk, ← hl.2]
    rfl

/-- Evaluation hands over the commands of a tree from left to right, inner ones first. -/
theorem dispatches_evaluate (d : Option (Dispatcher σ)) (n : Node) :
    Dispatches d (n.evaluate d) n.due n.Settles := by
  induction n using induct with
  | h l ks ih =>
    have hall := dispatches_evaluateAll (d := d) ih
    have hdue : ∀ js, js.map outline = ks.map outline → l.due js = l.due ks := by
      intro js hjs
      rw [Label.due, Label.due, any_isCodeBlock hjs]
    rcases evaluate_cases d l ks with
      ⟨he, hr⟩ | ⟨-, -, hr⟩ | ⟨he, kind, scope, hf, hr⟩ | ⟨he, -, hr⟩
    · rw [hr, due, if_pos he]
      refine .pure ⟨rfl, ?_⟩
      rw [flags_mk, ← he]
    · rw [hr]
      exact .fail _ _
    · have hnil : l.due ks = [] := by rw [Label.due, hf]
      rw [hr, due, he, hnil]
      refine (hall.inside scope).bind fun ⟨js, scope'⟩ ⟨hjs, hscope⟩ => ?_
      show Dispatches _ _ ({ l with form := .block kind scope' : Label }.due js ++ []) _
      refine (Label.dispatches_evaluate d _ js).bind fun m hm => .pure ?_
      refine settles_markEvaluated ⟨?_, hm.2⟩ hjs
      rw [hm.1]
      simp only [Label.outline, hf, Form.outline, hscope]
    · rw [hr, due, he]
      refine hall.bind fun js hjs => ?_
      rw [← hdue js hjs, ← List.append_nil (l.due js)]
      exact (l.dispatches_evaluate d js).bind fun m hm => .pure (settles_markEvaluated hm hjs)

theorem dispatches_all (d : Option (Dispatcher σ)) (ks : List Node) :
    Dispatches d (evaluateAll d ks) (dueAll ks) fun js => js.map outline = ks.map outline :=
  dispatches_evaluateAll fun k _ => dispatches_evaluate d k

/-! Evaluation declares nothing. -/

variable {m m' : Machine σ} {js : List Node} {n n' : Node}

theorem keys_evaluate (h : n.evaluate d m = (.ok n', m')) :
    m'.scopes.map Scope.keys = m.scopes.map Scope.keys := by
  have hs := (dispatches_evaluate d n m).1
  rw [h] at hs
  exact Scopes.keys_of_outline hs

theorem scopes_evaluateAll (h : evaluateAll d ks m = (.ok js, m')) :
    m'.scopes.map Scope.outline = m.scopes.map Scope.outline := by
  have hs := (dispatches_all d ks m).1
  rwa [h] at hs

theorem keys_evaluateAll (h : evaluateAll d ks m = (.ok js, m')) :
    m'.scopes.map Scope.keys = m.scopes.map Scope.keys :=
  Scopes.keys_of_outline (scopes_evaluateAll h)

end Node

namespace Progress

variable {σ : Type} {d : Option (Dispatcher σ)} {m m' m'' : Machine σ}
  {ns ns' rest rest' : List Node} {vs : List Value}

/-- Fragments passed over or evaluated one after the other, and the values of the evaluated ones. -/
inductive Pass (d : Option (Dispatcher σ)) :
    Machine σ → List Node → List Node → List Value → Machine σ → Prop where
  | nil (m : Machine σ) : Pass d m [] [] [] m
  | skip {m m' n ns ns' vs} (he : n.flags.evaluated = true) (h : Pass d m ns ns' vs m') :
      Pass d m (n :: ns) (n :: ns') vs m'
  | step {m m' m'' n n' ns ns' vs} (he : n.flags.evaluated = false) (hr : n.isReady = true)
      (hl : m.cancelled = false) (hn : n.evaluate d m = (.ok n', m'))
      (h : Pass d m' ns ns' vs m'') :
      Pass d m (n :: ns) (n' :: ns') (n'.result :: vs) m''

/-- How a pass can end, with the fragments that are left. -/
inductive End (d : Option (Dispatcher σ)) (m : Machine σ) :
    List Node → List Node → Machine σ → Option Stop → Prop where
  | finished (rest : List Node)
      (h : ∀ n ∈ rest.head?, n.flags.evaluated = false ∧ n.isReady = false) :
      End d m rest rest m none
  | interrupted {n} (ns : List Node) (he : n.flags.evaluated = false) (hr : n.isReady = true) :
      End d m (n :: ns) (n :: ns) { m with cancelled := true } (some .cancelled)
  | failed {n f m'} (ns : List Node) (he : n.flags.evaluated = false) (hr : n.isReady = true)
      (hl : m.cancelled = false) (h : n.evaluate d m = (.error f, m')) :
      End d m (n :: ns) ns
        { m' with
          scopes := m'.scopes.map (·.rollback n)
          outputs := m'.outputs ++ [.log (.evaluationFailed n.text f)] }
        (some (.failed f))

/-- All that an end takes away is the fragment that failed. -/
theorem End.sublist {stop : Option Stop} (h : End d m rest rest' m' stop) : rest'.Sublist rest := by
  cases h with
  | finished _ _ => exact .refl _
  | interrupted _ _ _ => exact .refl _
  | failed _ _ _ _ _ => exact List.sublist_cons_self _ _

/-- What a pass over the fragments can do. -/
theorem of_cases (d : Option (Dispatcher σ)) (interrupts : List Bool) (m : Machine σ)
    (ns : List Node) :
    ∃ ks ks' rest rest' vs m' m'' stop, ns = ks ++ rest ∧ Pass d m ks ks' vs m' ∧
      End d m' rest rest' m'' stop ∧ of d interrupts m ns = ⟨ks' ++ rest', m'', vs, stop⟩ := by
  induction ns generalizing m interrupts with
  | nil => exact ⟨[], [], [], [], [], m, m, none, rfl, .nil m, .finished [] (by simp), rfl⟩
  | cons n ns ih =>
    by_cases he : n.flags.evaluated = true
    · obtain ⟨ks, ks', rest, rest', vs, m', m'', stop, rfl, hp, hs, ho⟩ := ih interrupts m
      refine ⟨n :: ks, n :: ks', rest, rest', vs, m', m'', stop, rfl, .skip he hp, hs, ?_⟩
      rw [of, if_pos he, ho]
      rfl
    · have he' : n.flags.evaluated = false := by simpa using he
      by_cases hr : n.isReady = true
      · by_cases hc : (m.cancelled || interrupts.headD false) = true
        · refine ⟨[], [], n :: ns, n :: ns, [], m, _, _, rfl, .nil m, .interrupted ns he' hr, ?_⟩
          rw [of, if_neg he, if_neg (by simp [hr]), if_pos hc]
          rfl
        · have hl : m.cancelled = false :=
            (Bool.or_eq_false_iff.mp (Bool.not_eq_true _ ▸ hc)).1
          rcases hn : n.evaluate d m with ⟨f | n', m₁⟩
          · refine ⟨[], [], n :: ns, ns, [], m, _, _, rfl, .nil m, .failed ns he' hr hl hn, ?_⟩
            rw [of, if_neg he, if_neg (by simp [hr]), if_neg hc, hn]
            rfl
          · obtain ⟨ks, ks', rest, rest', vs, m', m'', stop, rfl, hp, hs, ho⟩ :=
              ih interrupts.tail m₁
            refine ⟨n :: ks, n' :: ks', rest, rest', n'.result :: vs, m', m'', stop, rfl,
              .step he' hr hl hn hp, hs, ?_⟩
            rw [of, if_neg he, if_neg (by simp [hr]), if_neg hc, hn]
            simp only [ho]
            rfl
      · have hr' : n.isReady = false := by simpa using hr
        refine ⟨[], [], n :: ns, n :: ns, [], m, m, none, rfl, .nil m, .finished _ ?_, ?_⟩
        · intro k hk
          obtain rfl : n = k := by simpa using hk
          exact ⟨he', hr'⟩
        · rw [of, if_neg he, if_pos (by simp [hr'])]
          rfl

end Progress

end TokenShell
