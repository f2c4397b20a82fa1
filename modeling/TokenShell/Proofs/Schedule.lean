import TokenShell.Proofs.Framing
import TokenShell.Proofs.Lockstep

/-! When a tree is evaluated does not matter: any two runs with the same insertions and resets come
to the same end. -/
namespace TokenShell

/-- The machine in a run that is not cancelled. -/
def Machine.revived {σ : Type} (m : Machine σ) : Machine σ := { m with cancelled := false }

namespace Node

variable {σ : Type} {d : Option (Dispatcher σ)} {n : Node} {xs ys zs js : List Node}
  {m m' m'' : Machine σ} {new : List Key}

/-- Evaluates one fragment of many. The next one is evaluated in a run that is live again, should
this one have cancelled it. -/
def evaluateFragment (d : Option (Dispatcher σ)) (n : Node) : Evaluation σ Node := fun m =>
  ((n.evaluate d m).1, (n.evaluate d m).2.revived)

/-- Evaluates fragments one after the other. -/
def evaluateFragments (d : Option (Dispatcher σ)) : List Node → Evaluation σ (List Node)
  | [] => return []
  | n :: ns => do
    let n ← n.evaluateFragment d
    return n :: (← evaluateFragments d ns)

theorem evaluateFragments_cons_ok : evaluateFragments d (n :: xs) m = (.ok zs, m'') ↔
    ∃ n' xs' m', n.evaluate d m = (.ok n', m') ∧
      evaluateFragments d xs m'.revived = (.ok xs', m'') ∧ zs = n' :: xs' := by
  rw [evaluateFragments, run_cons_ok]
  constructor
  · rintro ⟨n', xs', _, hn, hx, rfl⟩
    rcases he : n.evaluate d m with ⟨r, m'⟩
    rw [evaluateFragment, he] at hn
    cases hn
    exact ⟨n', xs', m', rfl, hx, rfl⟩
  · rintro ⟨n', xs', m', hn, hx, rfl⟩
    exact ⟨n', xs', m'.revived, by rw [evaluateFragment, hn], hx, rfl⟩

theorem evaluateFragments_append_ok : evaluateFragments d (xs ++ ys) m = (.ok zs, m'') ↔
    ∃ xs' ys' m', evaluateFragments d xs m = (.ok xs', m') ∧
      evaluateFragments d ys m' = (.ok ys', m'') ∧ zs = xs' ++ ys' := by
  induction xs generalizing m zs with
  | nil =>
    constructor
    · intro h
      exact ⟨[], zs, m, rfl, h, rfl⟩
    · rintro ⟨xs', ys', m', h, hy, rfl⟩
      cases h
      exact hy
  | cons n xs ih =>
    rw [List.cons_append, evaluateFragments_cons_ok]
    constructor
    · rintro ⟨n', as, m', hn, h, rfl⟩
      obtain ⟨xs', ys', m₁, hx, hy, rfl⟩ := ih.mp h
      exact ⟨n' :: xs', ys', m₁, evaluateFragments_cons_ok.mpr ⟨n', xs', m', hn, hx, rfl⟩, hy, rfl⟩
    · rintro ⟨as, ys', m₁, h, hy, rfl⟩
      obtain ⟨n', xs', m', hn, hx, rfl⟩ := evaluateFragments_cons_ok.mp h
      exact ⟨n', xs' ++ ys', m', hn, ih.mpr ⟨xs', ys', m₁, hx, hy, rfl⟩, rfl⟩

theorem framed_evaluateFragments (hx : ∀ x ∈ xs, Framed new (x.evaluate d)) :
    Framed new (evaluateFragments d xs) := by
  induction xs with
  | nil => exact .pure _
  | cons x xs ih =>
    refine .cons (x := x.evaluateFragment d) (dispatches_evaluate d x) ?_
      (ih fun y hy => hx y (by simp [hy]))
    intro m hm out
    simp only [evaluateFragment, hx x (by simp) m hm out]
    rfl

theorem scopes_evaluateFragments (h : evaluateFragments d xs m = (.ok js, m')) :
    m'.scopes.map Scope.outline = m.scopes.map Scope.outline := by
  induction xs generalizing m js with
  | nil =>
    cases h
    rfl
  | cons n xs ih =>
    obtain ⟨n', xs', m₁, hn, hx, rfl⟩ := evaluateFragments_cons_ok.mp h
    have hs := (dispatches_evaluate d n m).1
    rw [hn] at hs
    exact (ih hx).trans hs

/-- Evaluation goes on from the scopes and the world that were left. -/
theorem evaluateFragments_resume (hx : evaluateFragments d xs m = (.ok js, m'))
    (hl : m'.cancelled = false) (hm : m'.scopes ≠ [])
    (hz : evaluateFragments d zs ⟨m'.scopes, m'.world, false, []⟩ = (.ok ys, m'')) :
    evaluateFragments d (xs ++ zs) m =
      (.ok (js ++ ys), { m'' with outputs := m'.outputs ++ m''.outputs }) := by
  have hframe : Framed [] (evaluateFragments d zs) :=
    framed_evaluateFragments fun n _ => framed_evaluate n (by simp)
  have hfr := hframe ⟨m'.scopes, m'.world, false, []⟩ hm m'.outputs
  rw [hz, Machine.shift_nil, Machine.shift_nil] at hfr
  refine evaluateFragments_append_ok.mpr ⟨js, ys, m', hx, ?_, rfl⟩
  simpa [← hl] using hfr

theorem settles_evaluateFragments (h : evaluateFragments d xs m = (.ok js, m')) :
    List.Forall₂ Settles xs js := by
  induction xs generalizing m js with
  | nil =>
    cases h
    exact .nil
  | cons n xs ih =>
    obtain ⟨n', xs', m₁, hn, hx, rfl⟩ := evaluateFragments_cons_ok.mp h
    obtain ⟨-, _, -, -, -, hok⟩ := dispatches_evaluate d n m
    rw [hn] at hok
    exact .cons (hok n' rfl).2 (ih hx)

theorem ready_settles (h : List.Forall₂ Settles xs js)
    (hx : ∀ x ∈ xs, x.isReady = true) :
    ∀ x ∈ js, x.isReady = true ∧ x.flags.evaluated = true := by
  induction h with
  | nil => simp
  | cons hs _ ih =>
    intro y hy
    rcases List.mem_cons.mp hy with rfl | hy
    · exact ⟨by rw [hs.isReady, hx _ (by simp)], by rw [hs.2]⟩
    · exact ih (fun x hm => hx x (by simp [hm])) y hy

end Node

namespace Progress

variable {σ : Type} {d : Option (Dispatcher σ)} {m m' : Machine σ} {xs zs ks : List Node}
  {vs : List Value}

/-- A pass evaluates the fragments that are left, and starts each of them in a live run. -/
theorem Pass.evaluates (h : Pass d m zs ks vs m') (hz : ∀ z ∈ zs, z.flags.evaluated = false) :
    Node.evaluateAll d zs m = (.ok ks, m') ∧
      Node.evaluateFragments d zs m.revived = (.ok ks, m'.revived) ∧ vs = ks.map Node.result ∧
      ∀ z ∈ zs, z.isReady = true := by
  induction h with
  | nil m => exact ⟨rfl, rfl, rfl, by simp⟩
  | skip he _ _ =>
    rw [hz _ (by simp)] at he
    cases he
  | @step m m₁ _ n n' ns ns' _ _ hr hl hn _ ih =>
    obtain ⟨hall, hns, rfl, hready⟩ := ih fun z hm => hz z (by simp [hm])
    have hm : m.revived = m := by rw [Machine.revived, ← hl]
    refine ⟨Node.evaluateAll_cons_ok.mpr ⟨n', ns', m₁, hn, hall, rfl⟩, ?_, rfl, ?_⟩
    · rw [hm]
      exact Node.evaluateFragments_cons_ok.mpr ⟨n', ns', m₁, hn, hns, rfl⟩
    · intro z hz
      rcases List.mem_cons.mp hz with rfl | hz
      · exact hr
      · exact hready z hz

theorem Pass.skips (h : Pass d m (xs ++ zs) ks vs m') (hx : ∀ x ∈ xs, x.flags.evaluated = true) :
    ∃ zs', ks = xs ++ zs' ∧ Pass d m zs zs' vs m' := by
  induction xs generalizing ks with
  | nil => exact ⟨ks, rfl, h⟩
  | cons x xs ih =>
    rw [List.cons_append] at h
    cases h with
    | skip _ h =>
      obtain ⟨zs', rfl, hp⟩ := ih h fun y hy => hx y (by simp [hy])
      exact ⟨zs', rfl, hp⟩
    | step he _ _ _ _ =>
      rw [hx x (by simp)] at he
      cases he

theorem End.unevaluated {rest rest' : List Node} {stop : Option Stop}
    (h : End d m rest rest' m' stop) : ∀ n ∈ rest.head?, n.flags.evaluated = false := by
  intro n hn
  cases h with
  | finished _ h => exact (h n hn).1
  | interrupted _ he _ =>
    obtain rfl : _ = n := by simpa using hn
    exact he
  | failed _ he _ _ _ =>
    obtain rfl : _ = n := by simpa using hn
    exact he

/-- Where the evaluated fragments come first, the others are evaluated one after the other. -/
theorem of_pending (interrupts : List Bool) (m : Machine σ) {ys : List Node}
    (hx : ∀ x ∈ xs, x.flags.evaluated = true) (hy : ∀ y ∈ ys, y.flags.evaluated = false) :
    ∃ zs zs' rest rest' m' m'' stop, ys = zs ++ rest ∧ (∀ z ∈ zs, z.isReady = true) ∧
      Node.evaluateAll d zs m = (.ok zs', m') ∧
      Node.evaluateFragments d zs m.revived = (.ok zs', m'.revived) ∧
      End d m' rest rest' m'' stop ∧
      of d interrupts m (xs ++ ys) = ⟨xs ++ zs' ++ rest', m'', zs'.map Node.result, stop⟩ := by
  obtain ⟨ks, ks', rest, rest', vs, m', m'', stop, hns, hp, he, ho⟩ :=
    of_cases d interrupts m (xs ++ ys)
  have hsplit : ∃ zs, ks = xs ++ zs ∧ ys = zs ++ rest := by
    rcases List.append_eq_append_iff.mp hns with ⟨zs, hk, hz⟩ | ⟨as, hxs, hr⟩
    · exact ⟨zs, hk, hz⟩
    · cases as with
      | nil => exact ⟨[], by simpa using hxs.symm, by simpa using hr.symm⟩
      | cons a as =>
        -- The pass cannot end before a fragment that is evaluated.
        have ha := he.unevaluated a (by simp [hr])
        rw [hx a (by simp [hxs])] at ha
        cases ha
  obtain ⟨zs, rfl, rfl⟩ := hsplit
  obtain ⟨zs', rfl, hp'⟩ := hp.skips hx
  obtain ⟨hall, hz, rfl, hready⟩ := hp'.evaluates fun z hm => hy z (List.mem_append_left _ hm)
  exact ⟨zs, zs', rest, rest', m', m'', stop, rfl, hready, hall, hz, he, ho⟩

end Progress

namespace Tree

variable {σ : Type} {d : Option (Dispatcher σ)} {w : σ} {t u : Tree} {xs ys : List Node}
  {new : List Key}

/-- Evaluating fragments takes no notice of what is declared later. -/
theorem Planned.framed (h : t.Planned) (hx : ∀ x ∈ xs, x ∈ t.fragments)
    (hn : (t.globals.extend new).Distinct) : Framed new (Node.evaluateFragments d xs) := by
  refine Node.framed_evaluateFragments fun n hm => Node.framed_evaluate n ?_
  intro x hr k hk he
  have hdecl := h.grown.declares_iff.mpr (h.bound.fragments n (hx n hm) x hr)
  obtain ⟨k', hk', hx'⟩ := Scope.declares_iff.mp hdecl
  rw [Scope.Distinct, Scope.keys_extend, List.map_append, List.nodup_append] at hn
  exact hn.2.2 _ (List.mem_map_of_mem hk') _ (List.mem_map_of_mem hk) (hx'.trans he.symm)

theorem base_append (hf : t.fragments = xs ++ ys) (hx : ∀ x ∈ xs, x.isReady = true) :
    t.base.fragments = xs ++ ys.filter (·.isReady) := by
  rw [base, hf, List.filter_append, List.filter_eq_self.mpr hx]

theorem Sound.fragments_eq (h : t.Sound) :
    t.fragments = t.base.fragments ++ t.fragments.filter (!·.isReady) := by
  obtain ⟨rs, ps, hf, hr, hp, -⟩ := h.parts
  obtain ⟨h1, h2⟩ := filter_ready hr hp
  rw [base, hf, h1, h2]

theorem Sound.rest_eq (h : t.Sound) (hf : t.fragments = xs ++ ys)
    (hx : ∀ x ∈ xs, x.isReady = true) :
    ys = ys.filter (·.isReady) ++ t.fragments.filter (!·.isReady) := by
  have hall : xs ++ ys = xs ++ (ys.filter (·.isReady) ++ t.fragments.filter (!·.isReady)) := by
    rw [← List.append_assoc, ← base_append hf hx, ← hf]
    exact h.fragments_eq
  exact List.append_cancel_left hall

/-- Where the next fragment is not ready, no later one is. -/
theorem base_finished (h : t.Sound) (hf : t.fragments = xs ++ ys)
    (hx : ∀ x ∈ xs, x.isReady = true) (hy : ∀ y ∈ ys.head?, y.isReady = false) :
    t.base.fragments = xs := by
  cases hys : ys.filter (·.isReady) with
  | nil => rw [base_append hf hx, hys, List.append_nil]
  | cons z zs =>
    -- Otherwise the first of the ready ones would be the next fragment.
    have hhead := congrArg List.head? (h.rest_eq hf hx)
    rw [hys, List.cons_append, List.head?_cons] at hhead
    have hz : z ∈ ys.filter (·.isReady) := by simp [hys]
    have hr := (List.mem_filter.mp hz).2
    rw [hy z hhead] at hr
    cases hr

theorem Sound.twins (h : t.Sound) : t.Twins t.base t.base t :=
  ⟨⟨_, [], h.fragments_eq, h.fragments_eq, by simp [base], by simp [base]⟩, rfl, rfl, rfl⟩

/-- The machine on which a tree is evaluated from the beginning. -/
def machine (t : Tree) (w : σ) : Machine σ := ⟨[t.globals], w, false, []⟩

/-- All that is ready in a tree can be evaluated from the beginning. -/
def Evaluable (d : Option (Dispatcher σ)) (w : σ) (t : Tree) : Prop :=
  ∃ rs m, Node.evaluateFragments d t.base.fragments (t.machine w) = (.ok rs, m)

/-- The later tree has all that was ready and more. -/
structure Extends (t u : Tree) (new : List Key) : Prop where
  fragments : ∃ zs, u.fragments = t.base.fragments ++ zs
  globals : u.globals = t.globals.extend new

theorem machine_extends (h : t.Extends u new) (w : σ) :
    u.machine w = (t.machine w).shift new [] := by
  simp [machine, Machine.shift, Scopes.modifyLevel, h.globals]

theorem Extends.evaluable (h : t.Extends u new) (ht : t.Planned) (hu : u.globals.Distinct)
    (he : u.Evaluable d w) : t.Evaluable d w := by
  obtain ⟨zs, hf⟩ := h.fragments
  obtain ⟨rs, m, he⟩ := he
  rw [base_append hf ht.sound.stands.ready] at he
  obtain ⟨xs', ys', m', hx, -, -⟩ := Node.evaluateFragments_append_ok.mp he
  rw [h.globals] at hu
  have hframe : Framed new (Node.evaluateFragments d t.base.fragments) :=
    ht.framed (fun x hm => (List.mem_filter.mp hm).1) hu
  rw [machine_extends h, hframe (t.machine w) (by simp [machine]) []] at hx
  exact ⟨xs', _, Prod.ext (Prod.mk.inj hx).1 rfl⟩

/-- Where a ready fragment fails after those before it, the tree cannot be evaluated. -/
theorem not_evaluable {n : Node} {js : List Node} {m m' : Machine σ} {out : List Output}
    {f : Failure} (hf : t.fragments = xs ++ n :: ys) (hx : ∀ x ∈ xs, x.isReady = true)
    (hn : n.isReady = true)
    (he : Node.evaluateFragments d xs (t.machine w) =
      (.ok js, { m with outputs := out ++ m.outputs })) (hm : m.scopes ≠ [])
    (hfail : n.evaluate d m = (.error f, m')) : ¬ t.Evaluable d w := by
  rintro ⟨rs, m₁, hev⟩
  rw [base_append hf hx, List.filter_cons_of_pos hn] at hev
  obtain ⟨as, bs, m₂, ha, hb, -⟩ := Node.evaluateFragments_append_ok.mp hev
  cases he.symm.trans ha
  obtain ⟨n', is, m₃, hn', -, -⟩ := Node.evaluateFragments_cons_ok.mp hb
  have hframe : Framed [] (n.evaluate d) := Node.framed_evaluate n (by simp)
  have hfr := hframe m hm out
  rw [Machine.shift_nil, hn', hfail] at hfr
  cases hfr

end Tree

namespace Run

variable {σ : Type} {d : Option (Dispatcher σ)} {w : σ} {t u : Tree} {r r' : Run σ}
  {xs ys : List Node} {new : List Key}

/-- A run that has got as far as the tree `t`, in which nothing is evaluated, and has evaluated the
fragments `xs` of it. -/
structure Ahead (d : Option (Dispatcher σ)) (w : σ) (t : Tree) (xs : List Node) (r : Run σ) :
    Prop where
  planned : t.Planned
  sound : r.tree.Sound
  path : r.tree.path = t.path
  expectHead : r.tree.expectHead = t.expectHead
  clock : r.tree.clock = t.clock
  ready : ∀ x ∈ xs, x.isReady = true
  done : ∃ xs' ys, t.fragments = xs ++ ys ∧ r.tree.fragments = xs' ++ ys ∧
    Node.evaluateFragments d xs (t.machine w) =
      (.ok xs', ⟨[r.tree.globals], r.world, false, r.outputs⟩) ∧
    r.values = xs'.map Node.result

theorem ahead_fresh (d : Option (Dispatcher σ)) (w : σ) : Ahead d w {} [] { world := w } :=
  ⟨Tree.planned_fresh, Tree.sound_fresh, rfl, rfl, rfl, by simp,
    [], [], rfl, rfl, rfl, rfl⟩

/-- How far the run has got determines its tree and what it has shown. -/
theorem Ahead.unique (h : Ahead d w t xs r) (h' : Ahead d w t xs r') : r'.tree = r.tree ∧
    r'.world = r.world ∧ r'.values = r.values ∧ r'.outputs = r.outputs := by
  obtain ⟨xs₁, ys₁, hf₁, hr₁, he₁, hv₁⟩ := h.done
  obtain ⟨xs₂, ys₂, hf₂, hr₂, he₂, hv₂⟩ := h'.done
  obtain ⟨hok, hm⟩ := Prod.mk.inj (he₂.symm.trans he₁)
  obtain rfl := Except.ok.inj hok
  obtain ⟨hs, hw, -, ho⟩ := Machine.mk.inj hm
  have hg := (List.cons.inj hs).1
  obtain rfl : ys₁ = ys₂ := List.append_cancel_left (hf₁.symm.trans hf₂)
  refine ⟨?_, hw, by rw [hv₁, hv₂], ho⟩
  have hp := h'.path.trans h.path.symm
  have he := h'.expectHead.trans h.expectHead.symm
  have hc := h'.clock.trans h.clock.symm
  have hf := hr₂.trans hr₁.symm
  calc r'.tree = ⟨r'.tree.fragments, r'.tree.path, r'.tree.expectHead, r'.tree.globals,
        r'.tree.clock⟩ := rfl
    _ = r.tree := by rw [hp, he, hc, hf, hg]

/-- The tree of the run and the one it has got as far as differ in evaluated fragments only. -/
theorem Ahead.twins (h : Ahead d w t xs r) :
    t.globals.Alike r.tree.globals ∧ t.Twins t.base r.tree.base r.tree := by
  obtain ⟨xs', ys, hf, hr, he, -⟩ := h.done
  have hx' := Node.ready_settles (Node.settles_evaluateFragments he) h.ready
  have ho := Node.scopes_evaluateFragments he
  refine ⟨.of_outline (by simpa [Tree.machine] using ho.symm), ?_, h.path, h.expectHead, h.clock⟩
  refine ⟨t.fragments.filter (!·.isReady), [], h.planned.sound.fragments_eq, ?_,
    by simp [Tree.base], by simp [Tree.base]⟩
  rw [Tree.base_append hr fun x hm => (hx' x hm).1, List.append_assoc,
    ← h.planned.sound.rest_eq hf h.ready, hr]

/-- What is evaluated stays so, as if all declarations had been there before. -/
theorem Ahead.edit (h : Ahead d w t xs r) {v : Tree}
    (hv : u.Twins t.base r.tree.base v) (hu : u.Planned) (hs : v.Sound)
    (reports : List (List Event × Option Failure)) (closed : List Nat) :
    Ahead d w u xs { r with tree := v, reports, closed } := by
  obtain ⟨xs', ys, hf, hr, he, hvals⟩ := h.done
  have hx' := Node.ready_settles (Node.settles_evaluateFragments he) h.ready
  obtain ⟨⟨zs, new, hfu, hfv, hgu, hgv⟩, hp, hh, hc⟩ := hv
  have hext : t.Extends u new := ⟨⟨zs, hfu⟩, hgu⟩
  have hdist : (t.globals.extend new).Distinct := by
    have := hu.bound.distinct
    rwa [hext.globals] at this
  have hframe : Framed new (Node.evaluateFragments d xs) :=
    h.planned.framed (fun x hm => by simp [hf, hm]) hdist
  have hfr := hframe (t.machine w) (by simp [Tree.machine]) []
  rw [← Tree.machine_extends hext, he] at hfr
  refine ⟨hu, hs, hp, hh, hc, h.ready, xs', ys.filter (·.isReady) ++ zs, ?_, ?_, ?_, hvals⟩
  · rw [hfu, Tree.base_append hf h.ready, List.append_assoc]
  · rw [← List.append_assoc, ← Tree.base_append hr fun x hm => (hx' x hm).1]
    exact hfv
  · rw [hfr]
    simp [Machine.shift, Scopes.modifyLevel, hgv, Tree.base]

/-- An evaluation goes on where the last one stopped, and fails only where one from the beginning
would. -/
theorem Ahead.evaluate (h : Ahead d w t xs r) (cancelled : Bool) (interrupts : List Bool) :
    let r' := r.step d (.evaluate cancelled interrupts)
    ∃ stop, r'.stops = r.stops ++ [stop] ∧
      ((∃ f, stop = some (.failed f)) ∧ ¬ t.Evaluable d w ∨
        (∀ f, stop ≠ some (.failed f)) ∧ (∃ zs, Ahead d w t zs r') ∧
          (stop = none → Ahead d w t t.base.fragments r')) := by
  intro r'
  obtain ⟨xs', ys, hf, hr, he, hvals⟩ := h.done
  have hx' := Node.ready_settles (Node.settles_evaluateFragments he) h.ready
  have hy : ∀ y ∈ ys, y.flags.evaluated = false := fun y hm =>
    h.planned.pending y (by simp [hf, hm])
  obtain ⟨zs, zs', rest, rest', m', m'', stop, rfl, hzr, -, hz, hend, hof⟩ :=
    Progress.of_pending (d := d) interrupts ⟨[r.tree.globals], r.world, cancelled, []⟩
      (fun x hm => (hx' x hm).2) hy
  have hall := Node.evaluateFragments_resume he rfl (List.cons_ne_nil _ _) hz
  have hready : ∀ x ∈ xs ++ zs, x.isReady = true := fun x hm =>
    (List.mem_append.mp hm).elim (h.ready x) (hzr x)
  obtain ⟨g, hg⟩ : ∃ g, m'.scopes = [g] := by
    obtain ⟨g, hg, -⟩ := List.map_eq_singleton_iff.mp (Node.scopes_evaluateFragments hz)
    exact ⟨g, hg⟩
  have hgo : ∀ c, Progress.of d interrupts ⟨[r.tree.globals], r.world, cancelled, []⟩
      (xs' ++ (zs ++ rest)) =
        ⟨xs' ++ zs' ++ rest, { m' with cancelled := c }, zs'.map Node.result, stop⟩ →
      Ahead d w t (xs ++ zs) r' := by
    intro c hc
    refine ⟨h.planned, h.sound.evaluate d r.world cancelled interrupts, h.path, h.expectHead,
      h.clock, hready, xs' ++ zs', rest, by simp [hf], ?_, ?_, ?_⟩
    · simp only [r', step, Tree.evaluate, hr, hc]
    · rw [hall]
      simp only [r', step, Tree.evaluate, hr, hc, Machine.revived, hg, List.head?_cons,
        Option.getD_some]
    · simp only [r', step, Tree.evaluate, hr, hc, hvals, List.map_append]
  refine ⟨stop, ?_, ?_⟩
  · simp only [r', step, Tree.evaluate, hr, hof]
  cases hend with
  | finished _ hhead =>
    have hahead := hgo m'.cancelled hof
    refine Or.inr ⟨by simp, ⟨xs ++ zs, hahead⟩, fun _ => ?_⟩
    rwa [Tree.base_finished h.planned.sound (by simp [hf]) hready fun n hn => (hhead n hn).2]
  | interrupted ns _ _ => exact Or.inr ⟨by simp, ⟨xs ++ zs, hgo true hof⟩, by simp⟩
  | @failed n f m₁ _ _ hn hl hfail =>
    have hsplit : t.fragments = (xs ++ zs) ++ n :: rest' := by simp [hf]
    have hm : m'.revived = m' := by rw [Machine.revived, ← hl]
    rw [hm] at hall
    exact Or.inl ⟨⟨f, rfl⟩, Tree.not_evaluable hsplit hready hn hall (by simp [hg]) hfail⟩

/-- No evaluation has failed. -/
def Unfailing (r : Run σ) : Prop := ∀ f, some (.failed f) ∉ r.stops

/-- The run has got as far as the one that makes the insertions and resets only, and these have
reported the same. -/
structure Follows (d : Option (Dispatcher σ)) (w : σ) (p r : Run σ) : Prop where
  reports : r.reports = p.reports
  ahead : ∃ xs, Ahead d w p.tree xs r

theorem Follows.edit {p : Run σ} (h : Follows d w p r) {c : Call}
    (hc : c.edits = true) : Follows d w (p.step d c) (r.step d c) := by
  obtain ⟨xs, ha⟩ := h.ahead
  obtain ⟨hg, ht⟩ := ha.twins
  cases c with
  | insert tok =>
    have hs := Tree.Twins.insert ha.planned.sound ha.sound ht hg tok
    refine ⟨?_, xs, ha.edit hs.tree (ha.planned.insert tok) (ha.sound.insert tok) _ _⟩
    simp only [step, h.reports, hs.events, hs.failure]
  | reset =>
    have hs := ht.reset ha.planned.sound.stands ha.sound.stands
    refine ⟨?_, xs, ha.edit hs.tree ha.planned.reset ha.sound.reset _ _⟩
    simp only [step, h.reports, hs.events, hs.failure]
  | evaluate _ _ => cases hc

theorem planned_edit (h : r.tree.Planned) {c : Call} (hc : c.edits = true) :
    (r.step d c).tree.Planned ∧ ∃ new, r.tree.Extends (r.step d c).tree new := by
  have ht := h.sound.twins
  cases c with
  | insert tok =>
    have hs := Tree.Twins.insert h.sound h.sound ht (.refl _) tok
    obtain ⟨zs, new, hf, -, hg, -⟩ := hs.tree.added
    exact ⟨h.insert tok, new, ⟨zs, hf⟩, hg⟩
  | reset =>
    have hs := ht.reset h.sound.stands h.sound.stands
    obtain ⟨zs, new, hf, -, hg, -⟩ := hs.tree.added
    exact ⟨h.reset, new, ⟨zs, hf⟩, hg⟩
  | evaluate _ _ => cases hc

theorem stops_edit (r : Run σ) {c : Call} (hc : c.edits = true) : (r.step d c).stops = r.stops := by
  cases c with
  | evaluate _ _ => cases hc
  | _ => rfl

theorem Follows.evaluate {p : Run σ} (h : Follows d w p r) (hr : r.Unfailing)
    (cancelled : Bool) (interrupts : List Bool) :
    let r' := r.step d (.evaluate cancelled interrupts)
    r'.Unfailing ∨ p.tree.Evaluable d w → r'.Unfailing ∧ Follows d w p r' ∧
      (r'.stops.getLast? ≠ some (some .cancelled) →
        Ahead d w p.tree p.tree.base.fragments r') := by
  intro r' hor
  obtain ⟨xs, ha⟩ := h.ahead
  obtain ⟨stop, hstops, ⟨⟨f, rfl⟩, hno⟩ | ⟨hstop, hgo, hall⟩⟩ := ha.evaluate cancelled interrupts
  · rcases hor with hor | hor
    · exact (hor f (by rw [hstops]; simp)).elim
    · exact (hno hor).elim
  · refine ⟨?_, ⟨h.reports, hgo⟩, fun hlast => hall ?_⟩
    · intro f hm
      rw [hstops] at hm
      rcases List.mem_append.mp hm with hm | hm
      · exact hr f hm
      · exact hstop f (List.mem_singleton.mp hm).symm
    · rw [hstops, List.getLast?_concat] at hlast
      rcases stop with _ | _ | f
      · rfl
      · exact (hlast rfl).elim
      · exact (hstop f rfl).elim

theorem unfailing_of_evaluate {cancelled : Bool} {interrupts : List Bool}
    (h : (r.step d (.evaluate cancelled interrupts)).Unfailing) : r.Unfailing :=
  fun f hm => h f (List.mem_append_left _ hm)

/-- A run in which no evaluation fails follows the run of its insertions and resets, and so does any
run over a tree that can be evaluated from the beginning. -/
theorem follows (d : Option (Dispatcher σ)) (w : σ) (cs : List Call) :
    (of d w (cs.filter Call.edits)).tree.Planned ∧
    ((of d w cs).Unfailing ∨ (of d w (cs.filter Call.edits)).tree.Evaluable d w →
      (of d w cs).Unfailing ∧ Follows d w (of d w (cs.filter Call.edits)) (of d w cs)) := by
  induction cs using List.reverseRecOn with
  | nil =>
    exact ⟨Tree.planned_fresh, fun _ => ⟨by simp [Unfailing, of], rfl, [], ahead_fresh d w⟩⟩
  | append_singleton cs c ih =>
    obtain ⟨hplan, ih⟩ := ih
    rw [of_concat, List.filter_append]
    by_cases hc : c.edits = true
    · rw [List.filter_cons_of_pos hc, List.filter_nil, of_concat]
      obtain ⟨hplan', new, hext⟩ := planned_edit (d := d) hplan hc
      refine ⟨hplan', fun h => ?_⟩
      rw [Unfailing, stops_edit _ hc, ← Unfailing] at h ⊢
      obtain ⟨hun, hfol⟩ := ih (h.imp_right (hext.evaluable hplan hplan'.bound.distinct))
      exact ⟨hun, hfol.edit hc⟩
    · rw [List.filter_cons_of_neg hc, List.filter_nil, List.append_nil]
      refine ⟨hplan, fun h => ?_⟩
      cases c with
      | evaluate cancelled interrupts =>
        obtain ⟨hun, hfol⟩ := ih (h.imp_left unfailing_of_evaluate)
        obtain ⟨hun', hfol', -⟩ := hfol.evaluate hun cancelled interrupts h
        exact ⟨hun', hfol'⟩
      | _ => exact (hc rfl).elim

/-- After an evaluation that is not cut short, all that is ready is evaluated. -/
theorem settled (d : Option (Dispatcher σ)) (w : σ) (cs : List Call) (cancelled : Bool)
    (interrupts : List Bool)
    (hlast : (of d w (cs ++ [.evaluate cancelled interrupts])).stops.getLast? ≠
      some (some .cancelled))
    (h : (of d w (cs ++ [.evaluate cancelled interrupts])).Unfailing ∨
      (of d w (cs.filter Call.edits)).tree.Evaluable d w) :
    (of d w (cs ++ [.evaluate cancelled interrupts])).Unfailing ∧
      Follows d w (of d w (cs.filter Call.edits))
        (of d w (cs ++ [.evaluate cancelled interrupts])) ∧
      Ahead d w (of d w (cs.filter Call.edits)).tree
        (of d w (cs.filter Call.edits)).tree.base.fragments
        (of d w (cs ++ [.evaluate cancelled interrupts])) := by
  rw [of_concat] at hlast h ⊢
  obtain ⟨hun, hfol⟩ := (follows d w cs).2 (h.imp_left unfailing_of_evaluate)
  obtain ⟨hun', hfol', hall⟩ := hfol.evaluate hun cancelled interrupts h
  exact ⟨hun', hfol', hall hlast⟩

/-- When a tree is evaluated does not matter: two runs with the same insertions and resets, whose
last evaluations are not cut short, come to the same end if no evaluation of one fails. -/
theorem schedule_irrelevant (d : Option (Dispatcher σ)) (w : σ) {cs cs' : List Call} {c c' : Bool}
    {i i' : List Bool} (hedits : cs.filter Call.edits = cs'.filter Call.edits)
    (hlast : (of d w (cs ++ [.evaluate c i])).stops.getLast? ≠ some (some .cancelled))
    (hlast' : (of d w (cs' ++ [.evaluate c' i'])).stops.getLast? ≠ some (some .cancelled))
    (h : ∀ f, some (.failed f) ∉ (of d w (cs ++ [.evaluate c i])).stops) :
    let r := of d w (cs ++ [.evaluate c i])
    let r' := of d w (cs' ++ [.evaluate c' i'])
    (∀ f, some (.failed f) ∉ r'.stops) ∧ r'.reports = r.reports ∧ r'.values = r.values ∧
      r'.outputs = r.outputs ∧ r'.world = r.world ∧ r'.tree = r.tree := by
  intro r r'
  obtain ⟨-, hfol, hall⟩ := settled d w cs c i hlast (Or.inl h)
  have hev : (of d w (cs.filter Call.edits)).tree.Evaluable d w := by
    obtain ⟨xs', ys, -, -, he, -⟩ := hall.done
    exact ⟨xs', _, he⟩
  rw [hedits] at hfol hall hev
  obtain ⟨hun', hfol', hall'⟩ := settled d w cs' c' i' hlast' (Or.inr hev)
  obtain ⟨ht, hw, hv, ho⟩ := hall.unique hall'
  exact ⟨hun', hfol'.reports.trans hfol.reports.symm, hv, ho, hw, ht⟩

/-- The declaration of a variable by a command, a marker that closes nothing, and a sum. -/
def declarationThenSum : List Call :=
  [.insert ⟨"(", []⟩, .insert ⟨"new", []⟩, .insert ⟨"(", []⟩, .insert ⟨"init", []⟩,
    .insert ⟨"ID", "x"⟩, .insert ⟨"[", []⟩, .insert ⟨"FRAG", "a"⟩, .insert ⟨"]", []⟩,
    .insert ⟨")", []⟩, .insert ⟨")", []⟩, .insert ⟨"]", []⟩, .insert ⟨"(", []⟩,
    .insert ⟨"PLUS", []⟩, .insert ⟨"ID", "x"⟩, .insert ⟨"INT", "1"⟩, .insert ⟨")", []⟩]

/-- The same with evaluations in between, the first of which is cut short. -/
def declarationThenSumStepwise : List Call :=
  declarationThenSum.take 10 ++ [.evaluate true [], .evaluate false []] ++
    (declarationThenSum.drop 10).take 3 ++ [.evaluate false []] ++ declarationThenSum.drop 13

theorem schedule_irrelevant_declarationThenSum :
    let r := of (some Script.dispatcher) ⟨[], []⟩ (declarationThenSum ++ [.evaluate false []])
    let r' := of (some Script.dispatcher) ⟨[], []⟩
      (declarationThenSumStepwise ++ [.evaluate false []])
    r.values = [.int 0, .int 1] ∧ r.tree.globals.names = ["x"] ∧
      r.reports.map (·.2.isSome) = List.replicate 10 false ++ true :: List.replicate 5 false ∧
      r'.stops.map Option.isSome = [true, false, false, false] ∧
      (∀ f, some (.failed f) ∉ r'.stops) ∧ r'.reports = r.reports ∧ r'.values = r.values ∧
      r'.outputs = r.outputs ∧ r'.world = r.world ∧ r'.tree = r.tree := by
  intro r r'
  have hlast : r.stops.getLast?.map Option.isNone = some true := by decide +kernel
  have hlast' : r'.stops.getLast?.map Option.isNone = some true := by decide +kernel
  have hall : r.stops.all Option.isNone = true := by decide +kernel
  refine ⟨by decide +kernel, by decide +kernel, by decide +kernel, by decide +kernel, ?_⟩
  refine schedule_irrelevant (some Script.dispatcher) ⟨[], []⟩ rfl ?_ ?_ ?_
  · intro hc
    rw [hc] at hlast
    cases hlast
  · intro hc
    rw [hc] at hlast'
    cases hlast'
  · intro f hm
    have hf := List.all_eq_true.mp hall _ hm
    cases hf

end Run

end TokenShell
