import TokenShell.Proofs.Binding

/-! Framing: evaluation takes no notice of global names that a tree does not refer to, of what has
been shown before, and of a run being cancelled. -/
namespace TokenShell

namespace Scope

variable {s : Scope} {x : Bytes} {new : List Key}

theorem find?_extend (h : ∀ k ∈ new, k.1 ≠ x) : (s.extend new).find? x = s.find? x := by
  have hnone : new.find? (·.1 == x) = none :=
    List.find?_eq_none.mpr fun k hk => by simpa using h k hk
  rw [find?, find?, keys_extend, List.find?_append, hnone, Option.or_none]
  rfl

end Scope

namespace Scopes

variable {ss os : Scopes} {s : Scope} {f g : Scope → Scope} {j k : Nat}

theorem length_modifyLevel (k : Nat) (f : Scope → Scope) (ss : Scopes) :
    (ss.modifyLevel k f).length = ss.length := by
  induction ss with
  | nil => rfl
  | cons s os ih =>
    rw [modifyLevel]
    split
    · rfl
    · rw [List.length_cons, ih, List.length_cons]

theorem modifyLevel_zero_cons (f : Scope → Scope) (s : Scope) (h : os ≠ []) :
    modifyLevel 0 f (s :: os) = s :: os.modifyLevel 0 f := by
  simp [modifyLevel, h]

theorem level?_modifyLevel (j k : Nat) (f : Scope → Scope) (ss : Scopes) :
    level? k (ss.modifyLevel j f) = if k = j then (ss.level? k).map f else ss.level? k := by
  induction ss with
  | nil => simp [modifyLevel, level?]
  | cons s os ih =>
    rw [modifyLevel, level?]
    by_cases hj : os.length = j
    · by_cases hk : os.length = k
      · have hkj : k = j := hk.symm.trans hj
        simp [level?, hj, hkj]
      · have hkj : ¬ k = j := fun h => hk (hj.trans h.symm)
        have hjk : ¬ j = k := fun h => hkj h.symm
        simp [level?, hj, hkj, hjk]
    · rw [if_neg hj, level?, length_modifyLevel, ih]
      by_cases hk : os.length = k
      · have hkj : ¬ k = j := fun h => hj (hk.trans h)
        simp [hk, hkj]
      · simp [hk]

theorem modifyLevel_comm (h : j = k → ∀ s, f (g s) = g (f s)) (ss : Scopes) :
    (ss.modifyLevel k g).modifyLevel j f = (ss.modifyLevel j f).modifyLevel k g := by
  induction ss with
  | nil => rfl
  | cons s os ih =>
    by_cases hjk : j = k
    · subst hjk
      by_cases hj : os.length = j
      · simp [modifyLevel, hj, h rfl]
      · simp [modifyLevel, length_modifyLevel, hj, ih]
    · have hkj : ¬ k = j := fun he => hjk he.symm
      by_cases hj : os.length = j
      · simp [modifyLevel, length_modifyLevel, hj, hjk]
      · by_cases hk : os.length = k
        · simp [modifyLevel, length_modifyLevel, hk, hkj]
        · simp [modifyLevel, length_modifyLevel, hj, hk, ih]

end Scopes

/-- A machine with more global names, empty ones, and with output before its own. -/
def Machine.shift {σ : Type} (new : List Key) (out : List Output) (m : Machine σ) : Machine σ :=
  { m with scopes := m.scopes.modifyLevel 0 (·.extend new), outputs := out ++ m.outputs }

theorem Machine.shift_nil {σ : Type} (m : Machine σ) (out : List Output) :
    m.shift [] out = { m with outputs := out ++ m.outputs } := by
  have hid : ∀ ss : Scopes, ss.modifyLevel 0 (·.extend []) = ss := by
    intro ss
    induction ss with
    | nil => rfl
    | cons s os ih =>
      rw [Scopes.modifyLevel, ih, Scope.extend_nil, ite_self]
  simp only [shift, hid]

/-- Work that does the same on a machine with more global names. -/
def Framed {σ α : Type} (new : List Key) (work : Evaluation σ α) : Prop :=
  ∀ m, m.scopes ≠ [] → ∀ out, work (m.shift new out) = ((work m).1, (work m).2.shift new out)

namespace Framed

variable {σ α β : Type} {d : Option (Dispatcher σ)} {new : List Key} {x : Evaluation σ α}
  {f : α → Evaluation σ β} {all : List Nat} {P : α → Prop}

theorem pure (a : α) : Framed new (pure a : Evaluation σ α) :=
  fun _ _ _ => rfl

theorem fail (l : Label) (c : Cause) : Framed new (Evaluation.fail l c : Evaluation σ α) :=
  fun _ _ _ => rfl

theorem throw (e : Failure) : Framed new (throw e : Evaluation σ α) :=
  fun _ _ _ => rfl

theorem lift (x : Except Failure α) : Framed new (liftM x : Evaluation σ α) := by
  intro m _ out
  rw [run_lift, run_lift]

theorem emit (e : Event) : Framed new (Evaluation.emit e : Evaluation σ Unit) := by
  intro m _ out
  simp [Evaluation.emit, Machine.shift]

theorem read (k : Nat) (name : Bytes) (h : k = 0 → ∀ key ∈ new, key.1 ≠ name) :
    Framed new (Evaluation.read k name : Evaluation σ (Option Value)) := by
  intro m _ out
  have hget : ((m.scopes.modifyLevel 0 (·.extend new)).level? k).bind (·.get? name) =
      (m.scopes.level? k).bind (·.get? name) := by
    rw [Scopes.level?_modifyLevel]
    split
    · next hk =>
      rw [Option.bind_map]
      refine congrArg _ (funext fun s => ?_)
      simp only [Function.comp, Scope.get?, Scope.find?_extend (h hk)]
    · rfl
  simp only [Evaluation.read, Machine.shift, hget]

theorem write (k : Nat) (name : Bytes) (v : Value) (h : k = 0 → ∀ key ∈ new, key.1 ≠ name) :
    Framed new (Evaluation.write k name v : Evaluation σ Bool) := by
  intro m _ out
  have hcomm : (m.scopes.modifyLevel 0 (·.extend new)).modifyLevel k (·.bind name v) =
      (m.scopes.modifyLevel k (·.bind name v)).modifyLevel 0 (·.extend new) :=
    Scopes.modifyLevel_comm (fun _ s => (rfl : (s.extend new).bind name v = _)) m.scopes
  unfold Evaluation.write
  simp only [Machine.shift, hcomm, Scopes.level?_modifyLevel]
  cases hs : m.scopes.level? k with
  | none => simp
  | some s =>
    have hd : ∀ u, (if k = 0 then some (s.extend new) else some s) = some u →
        u.declares name = s.declares name := by
      intro u hu
      split at hu
      · next hk =>
        obtain rfl := Option.some.inj hu
        rw [Scope.declares, Scope.find?_extend (h hk), Scope.declares]
      · obtain rfl := Option.some.inj hu
        rfl
    by_cases hk : k = 0
    · have := hd (s.extend new) (by simp [hk])
      simp only [hk, if_true, Option.map_some, this]
      split <;> simp
    · simp only [hk, if_false]
      split <;> simp

theorem dispatch (e : Dispatcher σ) (command : Bytes) :
    Framed new (Evaluation.dispatch e command) := by
  intro m _ out
  simp [Evaluation.dispatch, Machine.shift]

theorem handOver (e : Dispatcher σ) (serial : Nat) (command : Bytes) :
    Framed new
      (do Evaluation.emit (.dispatching serial command); Evaluation.dispatch e command) := by
  intro m hm out
  rw [run_bind, run_bind, emit (.dispatching serial command) m hm out]
  exact dispatch e command (Evaluation.emit (.dispatching serial command) m).2 hm out

theorem nonempty (hd : Dispatches d x all P) {m : Machine σ} (hm : m.scopes ≠ []) :
    (x m).2.scopes ≠ [] := by
  intro hn
  have hk := (hd m).1
  rw [hn] at hk
  exact hm (by simpa using hk.symm)

theorem bind (hd : Dispatches d x all P) (hx : Framed new x) (hf : ∀ a, P a → Framed new (f a)) :
    Framed new (x >>= f) := by
  intro m hm out
  have hm' := nonempty hd hm
  obtain ⟨-, _, -, -, -, hok⟩ := hd m
  rw [run_bind, run_bind, hx m hm out]
  rcases hr : x m with ⟨_ | a, m'⟩
  · rfl
  · rw [hr] at hm' hok
    exact hf a (hok a rfl).2 m' hm' out

theorem cons {xs : Evaluation σ (List α)} (hd : Dispatches d x all P) (hx : Framed new x)
    (hxs : Framed new xs) :
    Framed new (do
      let a ← x
      return a :: (← xs)) := by
  refine bind hd hx fun a _ m hm out => ?_
  rw [run_bind, run_bind, hxs m hm out]
  rcases xs m with ⟨_ | as, m'⟩ <;> rfl

theorem inside (scope : Scope) (hd : Dispatches d x all P) (hx : Framed new x) :
    Framed new (Evaluation.inside scope x) := by
  intro m hm out
  have hin : ({ m with scopes := scope :: m.scopes } : Machine σ).shift new out =
      { m.shift new out with scopes := scope :: (m.shift new out).scopes } := by
    simp only [Machine.shift, Scopes.modifyLevel_zero_cons _ scope hm]
  have hframe := hx { m with scopes := scope :: m.scopes } (by simp) out
  rw [hin] at hframe
  unfold Evaluation.inside
  rw [hframe]
  have hk := (hd { m with scopes := scope :: m.scopes }).1
  rcases hr : x { m with scopes := scope :: m.scopes } with ⟨e | a, ⟨ss, w, c, os⟩⟩
  all_goals
    rw [hr] at hk
    cases ss with
    | nil => simp at hk
    | cons s outer =>
      have ho : outer ≠ [] := by
        rintro rfl
        simp only [List.map_cons, List.map_nil, List.cons.injEq] at hk
        exact hm (by simpa using hk.2.symm)
      simp [Machine.shift, Scopes.modifyLevel_zero_cons _ s ho]

end Framed

namespace Label

variable {σ : Type} {d : Option (Dispatcher σ)} {new : List Key}

theorem globalName?_outline (l : Label) : l.outline.globalName? = l.globalName? := by
  simp only [globalName?, outline]
  cases l.form <;> rfl

theorem framed_evaluateOperator (l : Label) (ks : List Node) :
    Framed new (l.evaluateOperator ks : Evaluation σ Label) := by
  unfold evaluateOperator
  dsimp only
  split
  · split
    · exact .pure _
    · split
      · exact .pure _
      · exact .fail _ _
    · split
      · exact .pure _
      · exact .fail _ _
    · exact .fail _ _
    · exact .fail _ _
  · exact .fail _ _

theorem framed_evaluateVariable (l : Label) (h : ∀ x ∈ l.globalName?, ∀ k ∈ new, k.1 ≠ x) :
    Framed new (l.evaluateVariable : Evaluation σ Label) := by
  unfold evaluateVariable
  split
  · next k hf =>
    refine .bind (d := none) (Dispatches.read _ _) (.read _ _ ?_) fun v _ => ?_
    · rintro rfl
      exact h _ (by simp [globalName?, hf])
    · cases v with
      | some v => exact .pure _
      | none => exact .fail _ _
  · exact .fail _ _
  · exact .pure _

theorem framed_evaluateInitializer (l : Label) (ks : List Node)
    (h : ∀ x ∈ ks.flatMap Node.reaches, ∀ k ∈ new, k.1 ≠ x) :
    Framed new (l.evaluateInitializer ks : Evaluation σ Label) := by
  unfold evaluateInitializer
  split
  · exact .fail _ _
  · next v rest =>
    dsimp only
    split
    · next b k hf =>
      refine .bind (d := none) (Dispatches.write _ _ _) (.write _ _ _ ?_) fun b _ => ?_
      · rintro rfl
        refine h _ (List.mem_flatMap.mpr ⟨v, by simp, ?_⟩)
        obtain ⟨m, is⟩ := v
        rw [Node.form_mk] at hf
        rw [Node.reaches_mk]
        exact List.mem_append_left _ (by simp [globalName?, hf])
      · cases b with
        | true => exact .pure _
        | false => exact .fail _ _
    · exact .fail _ _

theorem framed_evaluateFirst (l : Label) (ks : List Node) :
    Framed new (l.evaluateFirst ks : Evaluation σ Label) := by
  unfold evaluateFirst
  split
  · exact .pure _
  · exact .fail _ _

theorem framed_evaluateCommand (l : Label) (ks : List Node) :
    Framed new (l.evaluateCommand d ks) := by
  unfold evaluateCommand
  split
  · exact .bind (d := d) (Dispatches.emit _ rfl) (.emit _) fun _ _ => .pure _
  · refine .bind (d := d) (Dispatches.lift _) (.lift _) fun command _ => ?_
    cases d with
    | none => exact .fail _ _
    | some e =>
      dsimp only
      rw [← bind_assoc]
      refine .bind (Dispatches.handOver e l.serial command) (.handOver e _ _) fun r _ => ?_
      cases r with
      | error f => exact .throw _
      | ok line =>
        dsimp only
        split
        · exact .throw _
        · exact .bind (d := some e) (Dispatches.emit _ rfl) (.emit _) fun _ _ => .pure _

/-- The rule of a form refers to the name of the node and to those of its children. -/
theorem framed_evaluate (l : Label) (ks : List Node)
    (h : ∀ x ∈ (Node.mk l ks).reaches, ∀ k ∈ new, k.1 ≠ x) : Framed new (l.evaluate d ks) := by
  rw [Node.reaches_mk] at h
  unfold evaluate
  split
  · exact .pure _
  · exact l.framed_evaluateVariable fun x hx => h x (by simp [Option.mem_def.mp hx])
  · exact l.framed_evaluateOperator ks
  · exact l.framed_evaluateFirst ks
  · exact l.framed_evaluateFirst ks
  · exact .pure _
  · exact .pure _
  · exact l.framed_evaluateCommand ks
  · split
    · exact .pure _
    · exact .fail _ _
  · exact l.framed_evaluateInitializer ks fun x hx => h x (List.mem_append_right _ hx)

end Label

namespace Node

variable {σ : Type} {d : Option (Dispatcher σ)} {new : List Key} {ks js : List Node}

theorem reaches_outline (n : Node) : n.outline.reaches = n.reaches := by
  induction n using induct with
  | h l ks ih =>
    rw [outline_mk, reaches_mk, reaches_mk, Label.globalName?_outline, List.flatMap_map]
    refine congrArg _ ?_
    rw [List.flatMap_def, List.flatMap_def]
    exact congrArg _ (List.map_congr_left ih)

theorem reaches_of_outline (h : js.map outline = ks.map outline) :
    js.flatMap reaches = ks.flatMap reaches := by
  have hmap : ∀ is : List Node, is.flatMap reaches = (is.map outline).flatMap reaches := by
    intro is
    rw [List.flatMap_map]
    exact congrArg (List.flatMap · is) (funext fun n => (reaches_outline n).symm)
  rw [hmap, h, ← hmap]

theorem framed_evaluateAll (hk : ∀ k ∈ ks, Framed new (k.evaluate d)) :
    Framed new (evaluateAll d ks) := by
  induction ks with
  | nil => exact .pure _
  | cons k ks ih =>
    exact .cons (dispatches_evaluate d k) (hk k (by simp)) (ih fun i hi => hk i (by simp [hi]))

/-- Evaluating a tree takes no notice of global names it does not refer to. -/
theorem framed_evaluate (n : Node)
    (h : ∀ x ∈ n.reaches, ∀ k ∈ new, k.1 ≠ x) : Framed new (n.evaluate d) := by
  induction n using induct with
  | h l ks ih =>
    have hks := h
    rw [reaches_mk] at hks
    have hall : Framed new (evaluateAll d ks) := framed_evaluateAll fun k hk => ih k hk fun x hx =>
      hks x (List.mem_append_right _ (List.mem_flatMap.mpr ⟨k, hk, hx⟩))
    have hdis := dispatches_all d ks
    rcases evaluate_cases d l ks with ⟨-, hr⟩ | ⟨-, -, hr⟩ | ⟨-, kind, scope, hf, hr⟩ | ⟨-, -, hr⟩
    · rw [hr]
      exact .pure _
    · rw [hr]
      exact .fail _ _
    · rw [hr]
      refine .bind (hdis.inside scope) (.inside scope hdis hall) fun ⟨js, scope'⟩ hjs => ?_
      refine .bind (Label.dispatches_evaluate d _ js) ?_ fun m _ => .pure _
      refine Label.framed_evaluate _ js fun x hx => hks x ?_
      rw [reaches_mk, reaches_of_outline hjs.1] at hx
      exact List.mem_append_right _ (by simpa [Label.globalName?] using hx)
    · rw [hr]
      refine .bind hdis hall fun js hjs => ?_
      refine .bind (Label.dispatches_evaluate d l js) ?_ fun m _ => .pure _
      refine Label.framed_evaluate l js fun x hx => h x ?_
      rw [reaches_mk, reaches_of_outline hjs] at hx
      rwa [reaches_mk]

end Node

end TokenShell
