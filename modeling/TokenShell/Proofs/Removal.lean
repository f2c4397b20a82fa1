import Mathlib.Data.List.Find
import TokenShell.Proofs.Definedness
import TokenShell.Proofs.Registry

/-! What is removed from a tree: an evaluation that fails takes one fragment away with its
declarations, a reset those that evaluations do not reach, and the two do not interfere. -/
namespace TokenShell

/-! Writes to global cells. -/

/-- The entry of a name once values have been written one after the other. -/
def Scope.Entry.after (ws : List (Bytes × Value)) (e : Scope.Entry) : Scope.Entry :=
  ws.foldl (fun e w => if w.1 = e.name then { e with cell := some w.2 } else e) e

theorem Scope.Entry.after_append (as bs : List (Bytes × Value)) :
    after (as ++ bs) = after bs ∘ after as := by
  funext e
  rw [after, List.foldl_append]
  rfl

theorem Scope.Entry.map_after_nil (o : Option Scope.Entry) : o.map (after []) = o := by
  cases o <;> rfl

section Writes

variable {σ : Type} {d : Option (Dispatcher σ)} {m m' : Machine σ} {n k : Node} {l : Label}
  {ks : List Node} {x : Visit σ} {y : Bytes}

/-- The name of the global cell that the rule of an initializer writes to, and the value. -/
def Visit.write? (d : Option (Dispatcher σ)) (x : Visit σ) : Option (Bytes × Value) :=
  match x.label.form, x.operand?, (x.outcome d).1 with
  | .initializer, some v, .ok l => v.globalName?.map (·, l.result)
  | _, _, _ => none

/-- What rules write to global cells, in their order. -/
def writes (d : Option (Dispatcher σ)) (xs : List (Visit σ)) : List (Bytes × Value) :=
  xs.filterMap (Visit.write? d)

theorem writes_append (xs ys : List (Visit σ)) :
    writes d (xs ++ ys) = writes d xs ++ writes d ys :=
  List.filterMap_append

theorem writes_singleton (x : Visit σ) : writes d [x] = (x.write? d).toList := by
  rw [writes, List.filterMap_cons]
  cases x.write? d <;> rfl

theorem Machine.slot?_of_scopes {i : Nat} (h : m'.scopes = m.scopes) :
    m'.slot? i y = m.slot? i y := by
  rw [slot?, h, slot?]

theorem Visit.write?_of_error {f : Failure} (h : (x.outcome d).1 = .error f) :
    x.write? d = none := by
  unfold write?
  split
  · next hok => rw [h] at hok; cases hok
  · rfl

theorem Visit.write?_of_not_initializer (h : x.label.form ≠ .initializer) : x.write? d = none := by
  unfold write?
  split
  · next hl _ _ => exact (h hl).elim
  · rfl

/-- Only an initializer changes a scope. -/
theorem Visit.scopes_outcome (d : Option (Dispatcher σ)) (h : x.label.form ≠ .initializer) :
    (x.outcome d).2.scopes = x.machine.scopes := by
  cases hv : x.operand? with
  | none => exact (Visit.aloof d hv x.machine).1
  | some v =>
    rcases operand?_cases hv with ⟨rfl, b, hl⟩ | ⟨hl, -⟩
    · rw [outcome, Label.evaluate, hl]
      simp only [Label.evaluateVariable, hl]
      cases b with
      | none => rfl
      | some k =>
        dsimp only
        rw [run_bind, Evaluation.read]
        dsimp only
        cases (x.machine.scopes.level? k).bind (·.get? x.label.token.value) <;> rfl
    · exact (h hl).elim

/-- The rule of an initializer fills a cell with the value of the expression, or fails. -/
theorem Visit.outcome_initializer {j : Node} {rest : List Node} {c : Bool} {b : Option Nat}
    (d : Option (Dispatcher σ)) (hl : x.label.form = .initializer) (hk : x.kids = j :: rest)
    (hf : j.form = .variable c b) :
    (∃ f, x.outcome d = (.error f, x.machine)) ∨
      ∃ k v, b = some k ∧ x.outcome d = (.ok (x.label.withResult v),
        { x.machine with
          scopes := x.machine.scopes.modifyLevel k (·.bind j.label.token.value v) }) := by
  have hrule : x.outcome d = x.label.evaluateInitializer (j :: rest) x.machine := by
    rw [outcome, hk, Label.evaluate, hl]
  rw [hrule, Label.evaluateInitializer]
  simp only [hf]
  cases b with
  | none => exact Or.inl ⟨_, rfl⟩
  | some k =>
    dsimp only
    rw [run_bind, Evaluation.write_eq]
    cases x.machine.slot? k j.label.token.value with
    | none => exact Or.inl ⟨_, rfl⟩
    | some e => exact Or.inr ⟨k, _, rfl, rfl⟩

/-- A rule changes a global entry by what it writes. -/
theorem Visit.slot?_outcome (d : Option (Dispatcher σ)) (x : Visit σ) (y : Bytes) :
    (x.outcome d).2.slot? 0 y =
      (x.machine.slot? 0 y).map (Scope.Entry.after (x.write? d).toList) := by
  have hidle : (x.outcome d).2.scopes = x.machine.scopes → x.write? d = none →
      (x.outcome d).2.slot? 0 y =
        (x.machine.slot? 0 y).map (Scope.Entry.after (x.write? d).toList) := by
    intro hs hw
    rw [hw, Option.toList_none, Scope.Entry.map_after_nil, Machine.slot?_of_scopes hs]
  by_cases hl : x.label.form = .initializer
  · cases hv : x.operand? with
    | none => exact hidle (Visit.aloof d hv x.machine).1 (by simp [write?, hl, hv])
    | some v =>
      rcases operand?_cases hv with ⟨-, b, hl'⟩ | ⟨-, j, rest, hkids, rfl, c, b, hf⟩
      · rw [hl] at hl'
        cases hl'
      · rcases outcome_initializer d hl hkids hf with ⟨f, ho⟩ | ⟨k, v, rfl, ho⟩
        · exact hidle (by rw [ho]) (write?_of_error (by rw [ho]))
        · have hwrite : x.write? d = j.label.globalName?.map (·, v) := by
            rw [write?, hl, hv, ho]
            rfl
          rw [hwrite, ho, Machine.slot?_fill]
          cases hy : x.machine.slot? 0 y with
          | none => rfl
          | some e =>
            have hname : e.name = y := Machine.slot?_name hy
            cases k with
            | zero => simp [Label.globalName?, hf, Scope.Entry.after, hname]
            | succ k => simp [Label.globalName?, hf, Scope.Entry.after]
  · exact hidle (scopes_outcome d hl) (write?_of_not_initializer hl)

namespace Node

/-- What evaluation makes of the global entry of a name. -/
def Rewrites (d : Option (Dispatcher σ)) (y : Bytes) (n : Node) : Prop :=
  ∀ m : Machine σ, m.scopes ≠ [] → (n.evaluate d m).2.slot? 0 y =
    (m.slot? 0 y).map (Scope.Entry.after (writes d (n.visits d m)))

theorem rewrites_all (hk : ∀ k ∈ ks, k.Rewrites d y) (hm : m.scopes ≠ []) :
    (evaluateAll d ks m).2.slot? 0 y =
      (m.slot? 0 y).map (Scope.Entry.after (writes d (visitsAll d ks m))) := by
  induction ks generalizing m with
  | nil => exact (Scope.Entry.map_after_nil _).symm
  | cons k ks ih =>
    have hfirst := hk k (by simp) m hm
    have hne := Framed.nonempty (dispatches_evaluate d k) hm
    rw [evaluateAll, visitsAll, run_bind, writes_append, Scope.Entry.after_append, ← Option.map_map,
      ← hfirst]
    rcases hn : k.evaluate d m with ⟨f | k', m₁⟩
    · exact (Scope.Entry.map_after_nil _).symm
    · rw [hn] at hne
      dsimp only
      rw [run_bind, ← ih (fun j hj => hk j (by simp [hj])) hne]
      rcases evaluateAll d ks m₁ with ⟨f | ks', m₂⟩ <;> rfl

theorem rewrites_block {kind : BlockKind} {scope : Scope} (he : l.flags.evaluated = false)
    (ha : l.flags.analyzed = true) (hf : l.form = .block kind scope)
    (hk : ∀ k ∈ ks, k.Rewrites d y) : (mk l ks).Rewrites d y := by
  intro m hm
  have hpush : ∀ (m : Machine σ) (s : Scope), m.scopes ≠ [] →
      Machine.slot? { m with scopes := s :: m.scopes } 0 y = m.slot? 0 y := by
    intro m s hm
    rw [Machine.Primed.slot?_push, if_neg (by simpa using hm)]
  have hall := rewrites_all (m := { m with scopes := scope :: m.scopes }) hk (by simp)
  have hkeys := (dispatches_all d ks { m with scopes := scope :: m.scopes }).1
  rw [evaluate_block he ha hf, visits_block he ha hf, ← hpush m scope hm, ← hall, run_bind,
    Evaluation.inside]
  rcases hjs : evaluateAll d ks { m with scopes := scope :: m.scopes } with ⟨r, ⟨ss, w, c, os⟩⟩
  rw [hjs] at hkeys
  obtain ⟨s, outer, rfl, houter⟩ : ∃ s outer, ss = s :: outer ∧ outer ≠ [] := by
    cases ss with
    | nil => cases hkeys
    | cons s outer =>
      refine ⟨s, outer, rfl, ?_⟩
      rintro rfl
      exact hm (List.map_eq_nil_iff.mp (List.cons.inj hkeys).2.symm)
  rw [hpush ⟨outer, w, c, os⟩ s houter]
  cases r with
  | error f => rfl
  | ok js =>
    -- The rule of a block uses no variable.
    have hsame := (Visit.aloof (x := ⟨{ l with form := .block kind s }, js, ⟨outer, w, c, os⟩⟩) d
      rfl ⟨outer, w, c, os⟩).1
    refine Machine.slot?_of_scopes (Eq.trans ?_ hsame)
    dsimp only
    rw [run_bind]
    rcases Label.evaluate d { l with form := .block kind s } js ⟨outer, w, c, os⟩ with
      ⟨_ | _, _⟩ <;>
      rfl

theorem rewrites (d : Option (Dispatcher σ)) (y : Bytes) (n : Node) : n.Rewrites d y := by
  induction n using induct with
  | h l ks ih =>
    by_cases he : l.flags.evaluated = true
    · intro m _
      rw [evaluate, if_pos he, visits, if_pos (by simp [he])]
      exact (Scope.Entry.map_after_nil _).symm
    by_cases ha : l.flags.analyzed = true
    · have he : l.flags.evaluated = false := by simpa using he
      cases hb : l.isBlock with
      | true =>
        obtain ⟨kind, scope, hf⟩ := Label.isBlock_iff.mp hb
        exact rewrites_block he ha hf ih
      | false =>
        intro m hm
        rw [evaluate_other he ha hb, visits_other he ha hb, run_bind, writes_append,
          Scope.Entry.after_append, ← Option.map_map, ← rewrites_all ih hm]
        rcases evaluateAll d ks m with ⟨f | js, m₁⟩
        · exact (Scope.Entry.map_after_nil _).symm
        · have hown := Visit.slot?_outcome d ⟨l, js, m₁⟩ y
          dsimp only
          rw [writes_singleton, ← hown, Visit.outcome, run_bind]
          rcases l.evaluate d js m₁ with ⟨f | l', m₂⟩ <;> rfl
    · intro m _
      rw [evaluate, if_neg he, if_pos (by simpa using ha), visits, if_pos (by simp [ha])]
      exact (Scope.Entry.map_after_nil _).symm

theorem evaluateAll_failed {before is : List Node} (after : List Node) {f : Failure}
    {m'' : Machine σ} (h : evaluateAll d before m = (.ok is, m'))
    (hk : k.evaluate d m' = (.error f, m'')) :
    evaluateAll d (before ++ k :: after) m = (.error f, m'') := by
  induction before generalizing is m with
  | nil =>
    cases h
    rw [List.nil_append, evaluateAll, run_bind, hk]
  | cons n before ih =>
    obtain ⟨n', is', m₁, hn, hbefore, -⟩ := evaluateAll_cons_ok.mp h
    rw [List.cons_append, evaluateAll, run_bind, hn]
    dsimp only
    rw [run_bind, ih hbefore]

/-- A rule is that of a node of the tree. -/
theorem place_of_visits (above : List Node) (h : x ∈ n.visits d m) :
    ∃ p ∈ n.places above, p.2.label = x.label := by
  induction n using induct generalizing m above with
  | h l ks ih =>
    obtain ⟨-, ⟨-, hl, -⟩ | ⟨before, k, after, is, m', rfl, -, hx⟩⟩ := mem_visits h
    · exact ⟨_, mem_places_mk.mpr (Or.inl rfl), hl.symm⟩
    · obtain ⟨p, hp, hlabel⟩ := ih k (by simp) (mk l (before ++ k :: after) :: above) hx
      exact ⟨p, mem_places_mk.mpr (Or.inr ⟨k, by simp, hp⟩), hlabel⟩

theorem not_initializer_of_strays (h : n.strays = []) : n.form ≠ .initializer := by
  obtain ⟨l, ks⟩ := n
  intro hf
  rw [form_mk] at hf
  rw [strays_mk, strayStep, hf] at h
  cases h

/-- In a fragment every initializer belongs to a declaration. -/
theorem Settled.place_initializer {above : List Node} {p : List Node × Node} (hs : n.Settled)
    (hst : n.strays = if n.form = .initializer then [true] else []) (hp : p ∈ n.places above)
    (hi : p.2.form = .initializer) :
    p = (above, n) ∨ ∃ decl rest r, p.1 = decl :: rest ∧ decl.form = .declaration r := by
  induction n using induct generalizing above with
  | h l ks ih =>
    obtain ⟨-, hkids⟩ := settled_mk.mp hs
    rcases mem_places_mk.mp hp with rfl | ⟨k, hk, hp⟩
    · exact Or.inl rfl
    · right
      obtain ⟨hks, hkf⟩ : k.strays = (if k.form = .initializer then [true] else []) ∧
          (k.form = .initializer → ∃ r, l.form = .declaration r) := by
        by_cases hb : l.isBlock = true
        · obtain ⟨kind, scope, hf⟩ := Label.isBlock_iff.mp hb
          have hnone : false ∉ (Node.mk l ks).strays := by simp [hst, hf]
          rw [false_mem_strays, if_pos hb] at hnone
          have hks : k.strays = [] := by simpa using fun hne => hnone ⟨k, hk, hne⟩
          have hkf := not_initializer_of_strays hks
          exact ⟨by rw [hks, if_neg hkf], fun hki => (hkf hki).elim⟩
        · exact hs.strays_kids (by simpa using hb) hst k hk
      rcases ih k hk (hkids k hk) hks hp with rfl | hdecl
      · obtain ⟨r, hr⟩ := hkf hi
        exact ⟨_, _, r, rfl, hr⟩
      · exact hdecl

end Node

end Writes

namespace Scope

variable {s u : Scope} {ids : List Key} {names : List Bytes} {ws : List (Bytes × Value)}

/-- A scope after some of its names have been dropped with their cells and others written to. -/
structure Loses (s : Scope) (names : List Bytes) (ws : List (Bytes × Value)) (s' : Scope) :
    Prop where
  keys : s'.keys = s.keys.filter (·.1 ∉ names)
  gone : ∀ x ∈ names, s'.find? x = none ∧ ∀ c ∈ s'.cells, c.1 ≠ x
  others : ∀ x, x ∉ names → s'.find? x = (s.find? x).map (Entry.after ws)

theorem find?_without {x : Bytes} (h : ∀ k ∈ s.keys, k ∈ ids → k.1 ≠ x) :
    (s.without ids).find? x = s.find? x := by
  have hkeys : (s.without ids).keys.find? (·.1 == x) = s.keys.find? (·.1 == x) := by
    rw [keys_without, List.find?_filter]
    refine List.find?_congr fun k hk => ?_
    by_cases hname : k.1 = x
    · have hout : k ∉ ids := fun hin => h k hk hin hname
      simp [hname, hout]
    · simp [hname]
  have hcell : (s.without ids).cell? x = s.cell? x := by
    rw [cell?, cell?, without, List.find?_filter]
    congr 1
    refine List.find?_congr fun c _ => ?_
    by_cases hname : c.1 = x
    · subst hname
      simpa [← imp_iff_not_or] using h
    · simp [hname]
  rw [find?, find?, hkeys]
  refine Option.map_congr fun k hk => ?_
  obtain rfl : k.1 = x := by simpa using List.find?_some hk
  rw [hcell]

theorem loses_without (hids : ∀ k ∈ s.keys, k ∈ ids ↔ k.1 ∈ names) (hkeys : u.keys = s.keys)
    (hc : u.Covered) (hfind : ∀ x, u.find? x = (s.find? x).map (Entry.after ws)) :
    s.Loses names ws (u.without ids) where
  keys := by
    rw [keys_without, hkeys]
    exact List.filter_congr fun k hk => by simp only [hids k hk]
  gone x hx := by
    have hout : ∀ k ∈ u.keys, k.1 = x → k ∈ ids := fun k hk hname =>
      (hids k (hkeys ▸ hk)).mpr (hname ▸ hx)
    constructor
    · rw [find?, Option.map_eq_none_iff, List.find?_eq_none]
      intro k hk hname
      obtain ⟨hmem, hkey⟩ := List.mem_filter.mp hk
      simp [hout k hmem (by simpa using hname)] at hkey
    · intro c hmem hname
      obtain ⟨hmem, hall⟩ := mem_cells_without.mp hmem
      obtain ⟨k, hk, he⟩ := declares_iff.mp (hc c hmem)
      exact hall k hk (hout k hk (he.trans hname)) he
  others x hx := by
    rw [← hfind]
    exact find?_without fun k hk hin hname => hx (hname ▸ (hids k (hkeys ▸ hk)).mp hin)

end Scope

namespace Node

/-- The names that a fragment declares in the scope around it. -/
def names (n : Node) : List Bytes := (n.declarations false).map Prod.fst

end Node

def Stop.isFailure : Stop → Bool
  | cancelled => false
  | failed _ => true

theorem Stop.of_isFailure {x : Option Stop} (h : x.map isFailure = some true) :
    ∃ f, x = some (.failed f) := by
  obtain ⟨stop, rfl, h⟩ := Option.map_eq_some_iff.mp h
  cases stop with
  | cancelled => cases h
  | failed f => exact ⟨f, rfl⟩

theorem Stop.of_not_isFailure {x : Option Stop} (h : x.map isFailure = some false) :
    x = some .cancelled := by
  obtain ⟨stop, rfl, h⟩ := Option.map_eq_some_iff.mp h
  cases stop with
  | cancelled => rfl
  | failed f => cases h

namespace Tree

variable {t : Tree} {f : Node} {k : Key}

theorem Reachable.settled (h : t.Reachable) (hf : f ∈ t.fragments) (hr : f.isReady = true) :
    f.Settled :=
  (h.staged.fragments f hf).settled_of_ready hr

theorem Numbered.eq_of_identifiers {g : Node} (h : t.Numbered) (hg : g ∈ t.fragments)
    (hf : f ∈ t.fragments) (hkg : k ∈ g.identifiers) (hkf : k ∈ f.identifiers) : g = f := by
  have hnodup := (List.nodup_append.mp (List.Nodup.of_map _ h.distinct)).1
  obtain ⟨-, hpair⟩ := List.nodup_flatMap.mp hnodup
  have hsymm : Std.Symm (Function.onFun List.Disjoint Node.identifiers) :=
    ⟨fun _ _ h => List.disjoint_symm h⟩
  by_contra hne
  exact hpair.forall hg hf hne hkg hkf

/-- Of the global declarations, those are of a variable of a fragment whose names it declares. -/
theorem Reachable.mem_identifiers (h : t.Reachable) (hf : f ∈ t.fragments) (hr : f.isReady = true)
    (hk : k ∈ t.globals.keys) : k ∈ f.identifiers ↔ k.1 ∈ f.names := by
  have hset := h.settled hf hr
  have hentered : f.entered = f.declarations false := by
    rw [hset.entered_eq_named, hset.named_sights (by simp)]
  constructor
  · intro hid
    rw [h.kept.root.keys] at hk
    obtain ⟨g, hg, hkg⟩ := List.mem_flatMap.mp hk
    have hid' : k ∈ g.identifiers := (h.staged.fragments g hg).entered_subset hkg
    obtain rfl : g = f := h.sound.numbered.eq_of_identifiers hg hf hid' hid
    exact List.mem_map_of_mem (hentered ▸ hkg)
  · intro hname
    obtain ⟨k', hk', hsame⟩ := List.mem_map.mp hname
    have hglobal : k' ∈ t.globals.keys := by
      rw [h.kept.root.keys]
      exact List.mem_flatMap.mpr ⟨f, hf, hentered ▸ hk'⟩
    obtain rfl : k' = k := List.inj_on_of_nodup_map h.kept.root.distinct hglobal hk hsame
    exact Node.declarations_subset hk'

/-- How far an evaluation got. The fragments of `done` have been evaluated from `m` to `m'`, and of
`left` that follow them `left'` remain. -/
structure Reached {σ : Type} (t : Tree) (d : Option (Dispatcher σ)) (m m' : Machine σ)
    (e : Evaluated σ) (done left left' : List Node) : Prop where
  roots : ∃ es done', t.roots = es ++ done ++ left ∧ e.tree.roots = es ++ done' ++ left' ∧
    (∀ n ∈ es, n.Spent) ∧ (∀ n ∈ done, n.isReady = true ∧ n.Fresh) ∧
    Node.evaluateAll d done m = (.ok done', m') ∧ List.Forall₂ Node.Settles done done' ∧
    (∀ n ∈ done', n.Spent) ∧ e.values = done'.map Node.result
  path : e.tree.path = t.path
  expectHead : e.tree.expectHead = t.expectHead

variable {σ : Type} {d : Option (Dispatcher σ)} {m m' m'' : Machine σ}

/-- An initializer of a declaration or of a renewal in some fragments. -/
def Initializes (ns : List Node) (l : Label) : Prop :=
  ∃ n ∈ ns, ∃ p ∈ n.places [], p.2.label = l ∧
    ∃ decl above renew, p.1 = decl :: above ∧ decl.form = .declaration renew

theorem Reachable.initializes (h : t.Reachable) {ns : List Node} {x : Visit σ}
    (hns : ∀ n ∈ ns, n ∈ t.fragments ∧ n.isReady = true) (hx : x ∈ Node.visitsAll d ns m)
    (hw : x.write? d ≠ none) : Initializes ns x.label := by
  obtain ⟨before, n, after, -, m', rfl, -, hx⟩ := Node.mem_visitsAll hx
  obtain ⟨hn, hr⟩ := hns n (by simp)
  have hform : x.label.form = .initializer := by
    by_contra hf
    exact hw (Visit.write?_of_not_initializer hf)
  have hstrays := (h.kept.root.kept n hn).analyzed (Node.analyzed_of_ready hr)
  have hnot := Node.not_initializer_of_strays hstrays
  obtain ⟨p, hp, hlabel⟩ := Node.place_of_visits [] hx
  have hi : p.2.form = .initializer := by rw [Node.form, hlabel, hform]
  refine ⟨n, by simp, p, hp, hlabel, ?_⟩
  rcases (h.settled hn hr).place_initializer (by rw [hstrays, if_neg hnot]) hp hi with rfl | hdecl
  · exact (hnot hi).elim
  · exact hdecl

/-- What is passed over or evaluated, and what is left, when an evaluation ends. -/
theorem Reachable.reached (h : t.Reachable) (d : Option (Dispatcher σ)) (w : σ) (cancelled : Bool)
    (interrupts : List Bool) :
    let e := t.evaluate d w cancelled interrupts
    let m : Machine σ := ⟨[t.globals], w, cancelled, []⟩
    ∃ done rest rest' m' m'', Progress.End d m' rest rest' m'' e.stop ∧
      e.tree.globals = m''.scopes.head?.getD t.globals ∧
      (∀ n ∈ done ++ rest, n ∈ t.fragments) ∧
      t.Reached d m m' e done (rest ++ (openFragment t.path).toList)
        (rest' ++ (openFragment t.path).toList) := by
  intro e m
  obtain ⟨⟨es, rs, ps, hf, hl⟩, -⟩ := h.inLine_swept
  obtain ⟨-, hfresh⟩ := h.sound_fresh
  obtain ⟨zs, zs', rest, rest', m', m'', stop, hys, hready, hz, hlive, hend, hof⟩ :=
    Progress.of_pending (d := d) interrupts ⟨[t.globals], w, cancelled, []⟩
      (fun n hn => (hl.evaluated n hn).2) hl.unevaluated
  rw [← List.append_assoc, ← hf] at hof
  have hfrag : t.fragments = es ++ (zs ++ rest) := by rw [hf, List.append_assoc, hys]
  have he : e =
      { tree :=
          { t with
            fragments := es ++ zs' ++ rest'
            globals := m''.scopes.head?.getD t.globals }
        world := m''.world
        cancelled := m''.cancelled
        outputs := m''.outputs
        values := zs'.map Node.result
        stop } := by
    simp only [e, Tree.evaluate, hof]
  have hspare : ∀ n ∈ zs, n.Fresh := fun n hn =>
    hfresh.fragments n (by simp [hfrag, hn]) (hl.unevaluated n (by simp [hys, hn]))
  rw [he]
  refine ⟨zs, rest, rest', m', m'', hend, rfl, ?_, ?_, rfl, rfl⟩
  · intro n hn
    rw [hfrag]
    exact List.mem_append_right _ hn
  · refine ⟨es, zs', by simp [Tree.roots, hfrag], by simp [Tree.roots], ?_, ?_, hz,
      Node.settles_evaluateFragments hlive, ?_, rfl⟩
    · exact fun n hn => h.spent n (by simp [hfrag, hn]) (hl.evaluated n hn).2
    · exact fun n hn => ⟨hready n hn, hspare n hn⟩
    · exact Node.forall_evaluateAll (fun k hk _ _ _ hj => (hspare k hk).spent hj) hz

/-- What a failing fragment leaves of the global scope, once its declarations are dropped. -/
theorem Reachable.loses (h : t.Reachable) {done done' : List Node} {x : Failure}
    (hm : m.scopes = [t.globals]) (hf : f ∈ t.fragments) (hr : f.isReady = true)
    (hdone : Node.evaluateAll d done m = (.ok done', m')) (he : f.evaluate d m' = (.error x, m'')) :
    ∃ u, m''.scopes = [u] ∧ t.globals.Loses f.names
      (writes d (Node.visitsAll d (done ++ [f]) m)) (u.without f.identifiers) := by
  have hall := Node.evaluateAll_failed [] hdone he
  have hscopes := (Node.dispatches_all d (done ++ [f]) m).1
  rw [hall, hm] at hscopes
  obtain ⟨u, hu, hout⟩ : ∃ u, m''.scopes = [u] ∧ u.outline = t.globals.outline :=
    List.map_eq_singleton_iff.mp hscopes
  refine ⟨u, hu, Scope.loses_without (fun k hk => h.mem_identifiers hf hr hk)
    (Scope.Alike.of_outline hout).keys (h.sound.covered.of_outline hout) fun y => ?_⟩
  have hslot : (Node.evaluateAll d (done ++ [f]) m).2.slot? 0 y = _ :=
    Node.rewrites_all (fun n _ => Node.rewrites d y n) (by simp [hm])
  rw [hall] at hslot
  simpa [Machine.slot?, hu, hm, Scopes.level?] using hslot

/-- A failing fragment is removed with what it declares, and nothing else is but for what
initializers have written. A cancelled evaluation removes nothing and leaves no fragment half
evaluated. -/
theorem failure_removes_fragment (h : t.Reachable) (d : Option (Dispatcher σ)) (w : σ)
    (cancelled : Bool) (interrupts : List Bool) :
    let e := t.evaluate d w cancelled interrupts
    let m : Machine σ := ⟨[t.globals], w, cancelled, []⟩
    (∀ x, e.stop = some (.failed x) → ∃ done f rest m', t.Reached d m m' e done (f :: rest) rest ∧
      (f.isReady = true ∧ f.Fresh ∧ (f.evaluate d m').1 = .error x) ∧
      t.globals.Loses f.names (writes d (Node.visitsAll d (done ++ [f]) m)) e.tree.globals ∧
      ∀ y ∈ Node.visitsAll d (done ++ [f]) m, y.write? d ≠ none →
        Initializes (done ++ [f]) y.label) ∧
    (e.stop = some .cancelled → ∃ done left m', t.Reached d m m' e done left left ∧
      ∀ n ∈ e.tree.roots, n.Fresh ∨ n.Spent) := by
  intro e m
  obtain ⟨done, rest, rest', m', m'', hend, hglobals, hmem, hreached⟩ :=
    h.reached d w cancelled interrupts
  constructor
  · intro x hx
    rw [show e.stop = _ from hx] at hend
    cases hend with
    | @failed f _ m₂ ns hu hr _ hf =>
      have hmemf : f ∈ t.fragments := hmem f (by simp)
      obtain ⟨es, done', -, -, -, hdone, heval, -⟩ := hreached.roots
      obtain ⟨u, hu₂, hloses⟩ := h.loses rfl hmemf hr heval hf
      have hfresh : f.Fresh := h.sound_fresh.2.fragments f hmemf hu
      have hrolled : e.tree.globals = u.without f.identifiers := by
        rw [hglobals, hu₂, ← Scope.rollback_eq]
        rfl
      refine ⟨done, f, _, m', hreached, ⟨hr, hfresh, by rw [hf]⟩, ?_, ?_⟩
      · rw [hrolled]
        exact hloses
      · intro y hy hw
        refine h.initializes (fun n hn => ?_) hy hw
        rcases List.mem_append.mp hn with hn | hn
        · exact ⟨hmem n (by simp [hn]), (hdone n hn).1⟩
        · obtain rfl := List.mem_singleton.mp hn
          exact ⟨hmemf, hr⟩
  · intro hx
    rw [show e.stop = _ from hx] at hend
    cases hend with
    | @interrupted f ns _ _ =>
      refine ⟨done, _, m', hreached, ?_⟩
      obtain ⟨es, done', hroots, hroots', hes, -, -, -, hdone', -⟩ := hreached.roots
      intro n hn
      rw [hroots'] at hn
      rcases List.mem_append.mp hn with hn | hn
      · exact Or.inr ((List.mem_append.mp hn).elim (hes n) (hdone' n))
      · exact h.fresh_or_spent n (by rw [hroots]; exact List.mem_append_right _ hn)

/-- A declaration that is evaluated, a renewal, a declaration of two names of which the second has
no value, a literal, and an open expression. -/
def renewalThenFailure : List Call :=
  [.insert ⟨"(", []⟩, .insert ⟨"new", []⟩, .insert ⟨"(", []⟩, .insert ⟨"init", []⟩,
    .insert ⟨"ID", "a"⟩, .insert ⟨"INT", "1"⟩, .insert ⟨")", []⟩, .insert ⟨")", []⟩,
    .evaluate false [],
    .insert ⟨"(", []⟩, .insert ⟨"renew", []⟩, .insert ⟨"(", []⟩, .insert ⟨"init", []⟩,
    .insert ⟨"ID", "a"⟩, .insert ⟨"INT", "2"⟩, .insert ⟨")", []⟩, .insert ⟨")", []⟩,
    .insert ⟨"(", []⟩, .insert ⟨"new", []⟩, .insert ⟨"(", []⟩, .insert ⟨"init", []⟩,
    .insert ⟨"ID", "x"⟩, .insert ⟨"INT", "5"⟩, .insert ⟨")", []⟩, .insert ⟨"(", []⟩,
    .insert ⟨"init", []⟩, .insert ⟨"ID", "y"⟩, .insert ⟨"(", []⟩, .insert ⟨"exp", []⟩,
    .insert ⟨"(", []⟩, .insert ⟨"SLASH", []⟩, .insert ⟨"INT", "1"⟩, .insert ⟨"INT", "0"⟩,
    .insert ⟨")", []⟩, .insert ⟨")", []⟩, .insert ⟨")", []⟩, .insert ⟨")", []⟩,
    .insert ⟨"INT", "9"⟩, .insert ⟨";", []⟩, .insert ⟨"(", []⟩, .insert ⟨"exp", []⟩]

theorem failure_removes_fragment_renewalThenFailure :
    let t := (Run.of (none : Option (Dispatcher Unit)) () renewalThenFailure).tree
    let e := t.evaluate (none : Option (Dispatcher Unit)) () false []
    t.Reachable ∧
      (∃ done f rest m', t.Reached none ⟨[t.globals], (), false, []⟩ m' e done (f :: rest) rest) ∧
      t.roots.length = 5 ∧ e.tree.roots.length = 4 ∧ e.values = [.int 2] ∧
      t.globals.keys.map Prod.fst = [("a" : Bytes), ("x" : Bytes), ("y" : Bytes)] ∧
      e.tree.globals.keys.map Prod.fst = [("a" : Bytes)] ∧
      e.tree.globals.get? "a" = some (.int 2) ∧
      ∃ done left m', t.Reached (none : Option (Dispatcher Unit)) ⟨[t.globals], (), true, []⟩ m'
        (t.evaluate none () true []) done left left := by
  intro t e
  have hreach : t.Reachable := ⟨Unit, none, (), _, rfl⟩
  obtain ⟨hfailed, -⟩ := failure_removes_fragment hreach
    (none : Option (Dispatcher Unit)) () false []
  obtain ⟨-, hcancelled⟩ := failure_removes_fragment hreach
    (none : Option (Dispatcher Unit)) () true []
  have hfails : e.stop.map Stop.isFailure = some true := by decide +kernel
  have hcancels : (t.evaluate (none : Option (Dispatcher Unit)) () true []).stop.map
      Stop.isFailure = some false := by
    decide +kernel
  obtain ⟨x, hx⟩ := Stop.of_isFailure hfails
  obtain ⟨done, f, rest, m', hreached, -⟩ := hfailed x hx
  obtain ⟨done', left, m'', hreached', -⟩ := hcancelled (Stop.of_not_isFailure hcancels)
  have hshown : t.roots.length = 5 ∧ e.tree.roots.length = 4 ∧ e.values = [.int 2] ∧
      t.globals.keys.map Prod.fst = [("a" : Bytes), ("x" : Bytes), ("y" : Bytes)] ∧
      e.tree.globals.keys.map Prod.fst = [("a" : Bytes)] ∧
      e.tree.globals.get? "a" = some (.int 2) := by
    decide +kernel
  obtain ⟨hroots, hroots', hvalues, hkeys, hkeys', ha⟩ := hshown
  exact ⟨hreach, ⟨done, f, rest, m', hreached⟩, hroots, hroots', hvalues, hkeys, hkeys', ha,
    done', left, m'', hreached'⟩

end Tree

namespace Progress

variable {σ : Type} {d : Option (Dispatcher σ)}

/-- Evaluation does not reach the fragments that are not analyzed. -/
theorem of_append_raw (interrupts : List Bool) (m : Machine σ) (rs : List Node) {ps : List Node}
    (hp : ∀ p ∈ ps, p.Raw) :
    of d interrupts m (rs ++ ps) =
      { of d interrupts m rs with fragments := (of d interrupts m rs).fragments ++ ps } := by
  induction rs generalizing interrupts m with
  | nil =>
    cases ps with
    | nil => rfl
    | cons p ps =>
      have hraw := hp p (by simp)
      rw [List.nil_append, (visits_unready interrupts m hraw.flags.2 hraw.not_ready).2]
      rfl
  | cons n rs ih =>
    rw [List.cons_append]
    by_cases he : n.flags.evaluated = true
    · rw [of, if_pos he, ih, of, if_pos he]
      rfl
    have he : n.flags.evaluated = false := by simpa using he
    by_cases hr : n.isReady = true
    · by_cases hi : (m.cancelled || interrupts.headD false) = true
      · rw [(visits_interrupted he hr hi).2, (visits_interrupted he hr hi).2]
        rfl
      · rcases hn : n.evaluate d m with ⟨f | n', m₁⟩
        · rw [of, if_neg (by simp [he]), if_neg (by simp [hr]), if_neg hi, hn]
          rw [of, if_neg (by simp [he]), if_neg (by simp [hr]), if_neg hi, hn]
        · rw [(visits_evaluated _ he hr hi hn).2, ih, (visits_evaluated _ he hr hi hn).2]
          rfl
    · have hr : n.isReady = false := by simpa using hr
      rw [(visits_unready interrupts m he hr).2, (visits_unready interrupts m he hr).2]
      rfl

end Progress

namespace Tree

variable {σ : Type} {t : Tree}

theorem Sound.reset_eq (h : t.Sound) {rs ps : List Node} (hf : t.fragments = rs ++ ps)
    (hr : ∀ r ∈ rs, r.isReady = true) (hp : ∀ p ∈ ps, p.Raw) :
    t.reset = ⟨{ t with fragments := rs, path := [], expectHead := false },
      if (ps ++ (openFragment t.path).toList).isEmpty then []
      else [.discarded (ps ++ (openFragment t.path).toList).length], none⟩ := by
  have hopen := (openFragment_spec t.path).2 fun n hn => (h.opened n hn).raw
  have hraw : ∀ p ∈ ps ++ (openFragment t.path).toList, p.Raw := fun p hm =>
    (List.mem_append.mp hm).elim (hp p) (hopen p)
  have hbase : t.base.fragments = rs := by
    rw [base, hf]
    exact (filter_ready hr hp).1
  obtain ⟨hkept, hdropped⟩ := filter_ready (fun r hr => (List.not_mem_nil hr).elim) hraw
  rw [List.nil_append] at hkept hdropped
  rw [h.stands.reset (show t.roots = t.base.fragments ++ (ps ++ (openFragment t.path).toList) by
    rw [hbase, roots, hf, List.append_assoc]), hkept, hdropped, hbase, List.append_nil]
  simp [base]

/-- It makes no difference whether a tree is reset before or after an evaluation. -/
theorem reset_evaluate_comm (h : t.Reachable) (d : Option (Dispatcher σ)) (w : σ) (cancelled : Bool)
    (interrupts : List Bool) :
    let e := t.evaluate d w cancelled interrupts
    t.reset.tree.evaluate d w cancelled interrupts = { e with tree := e.tree.reset.tree } ∧
      t.reset.events = e.tree.reset.events := by
  intro e
  obtain ⟨⟨es, rs, ps, hf, hl⟩, -⟩ := h.inLine_swept
  obtain ⟨done, done', left, left', -, he, hl', -, -⟩ := hl.evaluate hf d w cancelled interrupts
  have hreset := h.sound.reset_eq hf hl.all_ready hl.raw
  have hreset' := (h.sound.evaluate d w cancelled interrupts).reset_eq he hl'.all_ready hl'.raw
  have hraw := Progress.of_append_raw (d := d) interrupts ⟨[t.globals], w, cancelled, []⟩ (es ++ rs)
    hl.raw
  rw [← hf] at hraw
  have hfragments : es ++ done' ++ left' =
      (Progress.of d interrupts ⟨[t.globals], w, cancelled, []⟩ (es ++ rs)).fragments := by
    refine List.append_cancel_right (he.symm.trans ?_)
    simp only [Tree.evaluate, hraw]
  refine ⟨?_, ?_⟩
  · rw [hreset, hreset']
    simp only [e, Tree.evaluate, hraw, hfragments]
  · rw [hreset, hreset']
    rfl

theorem reset_evaluate_comm_renewalThenFailure :
    let t := (Run.of (none : Option (Dispatcher Unit)) () renewalThenFailure).tree
    let e := t.evaluate (none : Option (Dispatcher Unit)) () false []
    t.Reachable ∧ e.stop.isSome = true ∧ t.reset.events.length = 1 ∧
      t.reset.tree.evaluate none () false [] = { e with tree := e.tree.reset.tree } ∧
      t.roots.length = 5 ∧ e.tree.reset.tree.roots.length = 3 := by
  intro t e
  have hreach : t.Reachable := ⟨Unit, none, (), _, rfl⟩
  have hshown : e.stop.isSome = true ∧ t.reset.events.length = 1 ∧ t.roots.length = 5 ∧
      e.tree.reset.tree.roots.length = 3 := by
    decide +kernel
  obtain ⟨hstop, hevents, hroots, hroots'⟩ := hshown
  obtain ⟨hcomm, -⟩ := reset_evaluate_comm hreach (none : Option (Dispatcher Unit)) () false []
  exact ⟨hreach, hstop, hevents, hcomm, hroots, hroots'⟩

end Tree

end TokenShell
