import TokenShell.Proofs.Grounding
import TokenShell.Proofs.Queue
import TokenShell.Proofs.Rules

/-! Variables are written before they are read. The order of evaluation is that in which the
variables of a tree are grounded, and a cell that is known is written. -/
namespace TokenShell

/-! What is known by the time a rule is applied. -/

section Visits

variable {σ : Type} {d : Option (Dispatcher σ)} {m m' : Machine σ} {n : Node} {l : Label}
  {ks js : List Node} {x y : Visit σ} {xs ys past past' : List (Visit σ)} {f : Failure}
  {name : Bytes} {known known' : List (Nat × Key)} {ctx : List (List Key)} {b : Bool}

/-- The rule of a declaration or of a renewal leaves an entry, filled with its result, in the scope
at a level. -/
structure Visit.Leaves (d : Option (Dispatcher σ)) (y : Visit σ) (k : Nat) (e : Scope.Entry) :
    Prop where
  initializer : y.label.form = .initializer
  names : ∃ v c, y.operand? = some v ∧ v.form = .variable c (some k) ∧ v.token.value = e.name
  yields : ∃ value, e.cell = some value ∧ (y.outcome d).1 = .ok (y.label.withResult value)
  slot : (y.outcome d).2.slot? k e.name = some e

/-- A reference finds in the scope that it is bound to what a declaration or a renewal has left
there. A declaration and a renewal find their name declared. -/
structure Visit.Defined (d : Option (Dispatcher σ)) (past : List (Visit σ)) (x : Visit σ) :
    Prop where
  reference : ∀ b, x.label.form = .variable false b → ∃ k e, b = some k ∧
    x.machine.slot? k x.label.token.value = some e ∧ ∃ y ∈ past, y.Leaves d k e
  initializer : x.label.form = .initializer → ∃ v c k e, x.operand? = some v ∧
    v.form = .variable c (some k) ∧ x.machine.slot? k v.token.value = some e

/-- Rules that are applied one after the other. -/
def Visit.AllDefined (d : Option (Dispatcher σ)) (past : List (Visit σ)) : List (Visit σ) → Prop
  | [] => True
  | x :: xs => x.Defined d past ∧ AllDefined d (past ++ [x]) xs

theorem Visit.allDefined_append : AllDefined d past (xs ++ ys) ↔
    AllDefined d past xs ∧ AllDefined d (past ++ xs) ys := by
  induction xs generalizing past with
  | nil => simp [AllDefined]
  | cons x xs ih =>
    rw [List.cons_append, AllDefined, AllDefined, ih, and_assoc, List.append_assoc]
    rfl

theorem Visit.AllDefined.at (h : AllDefined d past (xs ++ x :: ys)) : x.Defined d (past ++ xs) :=
  (allDefined_append.mp h).2.1

/-- A rule that finds the name of its variable declared uses that entry. -/
theorem Visit.uses_of_slot {c : Bool} {k : Nat} {e : Scope.Entry} {v : Label}
    (d : Option (Dispatcher σ)) (hv : x.operand? = some v) (hf : v.form = .variable c (some k))
    (he : x.machine.slot? k v.token.value = some e) : x.Uses k e (x.outcome d) := by
  rcases outcome_cases d hv hf with ⟨e', he', hu⟩ | ⟨hnone, -⟩
  · obtain rfl : e = e' := Option.some.inj (he.symm.trans he')
    exact hu
  · rw [he] at hnone
    cases hnone

theorem Visit.outcome_reference {k : Nat} {e : Scope.Entry} (x : Visit σ)
    (d : Option (Dispatcher σ)) (hl : x.label.form = .variable false (some k))
    (he : x.machine.slot? k x.label.token.value = some e) :
    x.outcome d = (.ok (x.label.withResult (e.cell.getD .nil)), x.machine) := by
  have hv : x.operand? = some x.label := by simp [operand?, hl]
  have hu := uses_of_slot d hv hl he
  rcases hr : x.outcome d with ⟨r, m'⟩
  rw [hr] at hu
  cases hu with
  | reads _ => rfl
  | fills hl' _ _ _ =>
    rw [hl] at hl'
    cases hl'

/-- An initializer that finds its name declared fills that entry and no other. -/
theorem Visit.leaves {c : Bool} {k : Nat} {e : Scope.Entry} {v : Label}
    (hl : x.label.form = .initializer) (hv : x.operand? = some v)
    (hf : v.form = .variable c (some k)) (he : x.machine.slot? k v.token.value = some e) :
    ∃ value, x.Leaves d k { e with cell := some value } ∧
      ∀ j name, (j, name) ≠ (k, e.name) →
        (x.outcome d).2.slot? j name = x.machine.slot? j name := by
  have hu := uses_of_slot d hv hf he
  rcases hr : x.outcome d with ⟨r, m'⟩
  rw [hr] at hu
  cases hu with
  | reads hl' =>
    rw [hl] at hl'
    cases hl'
  | @fills _ value _ _ hfilled hothers =>
    have hname : v.token.value = e.name := (Machine.slot?_name he).symm
    refine ⟨value, ⟨hl, ⟨v, c, hv, hf, hname⟩, ⟨value, rfl, by rw [hr]⟩, ?_⟩, hothers⟩
    rw [hr]
    exact hfilled

theorem Visit.Defined.found {v : Label} (h : x.Defined d past) (hv : x.operand? = some v) :
    ∃ c k e, v.form = .variable c (some k) ∧ x.machine.slot? k v.token.value = some e := by
  rcases operand?_cases hv with ⟨rfl, b, hl⟩ | ⟨hl, -⟩
  · obtain ⟨k, e, rfl, he, -⟩ := h.reference b hl
    exact ⟨false, k, e, hl, he⟩
  · obtain ⟨u, c, k, e, hu, hf, he⟩ := h.initializer hl
    obtain rfl := Option.some.inj (hv.symm.trans hu)
    exact ⟨c, k, e, hf, he⟩

/-- A rule that is defined does not fail for want of a declaration. -/
theorem Visit.Defined.cause_ne (h : x.Defined d past) (hr : (x.outcome d).1 = .error f) :
    f.cause ≠ .noLongerDeclared name := by
  cases hv : x.operand? with
  | none => exact (Visit.aloof d hv x.machine).2 f name hr
  | some v =>
    obtain ⟨c, k, e, hf, he⟩ := h.found hv
    have hu := uses_of_slot d hv hf he
    rcases ho : x.outcome d with ⟨r, m'⟩
    rw [ho] at hu hr
    cases hu <;> cases hr

/-- What the machine holds of the declarations that are known has been left there by a rule. -/
structure Machine.Primed (d : Option (Dispatcher σ)) (known : List (Nat × Key))
    (past : List (Visit σ)) (m : Machine σ) : Prop where
  filled : ∀ k x e, m.slot? k x = some e → (k, e.key) ∈ known → ∃ y ∈ past, y.Leaves d k e
  distinct : ∀ s ∈ m.scopes, s.Distinct

namespace Machine.Primed

theorem of_scopes (h : m.Primed d known past) (hs : m'.scopes = m.scopes) :
    m'.Primed d known past where
  filled k x e he := h.filled k x e (by rwa [slot?, ← hs])
  distinct := hs ▸ h.distinct

theorem later (h : m.Primed d known past) (hp : past ⊆ past') : m.Primed d known past' where
  filled k x e he hk := by
    obtain ⟨y, hy, hleaves⟩ := h.filled k x e he hk
    exact ⟨y, hp hy, hleaves⟩
  distinct := h.distinct

theorem slot?_push (m : Machine σ) (s : Scope) (k : Nat) (x : Bytes) :
    slot? { m with scopes := s :: m.scopes } k x =
      if m.scopes.length = k then s.find? x else m.slot? k x := by
  rw [slot?, slot?, Scopes.level?]
  split <;> rfl

/-- A block starts with a scope of which nothing is known. -/
theorem push {s : Scope} (h : m.Primed d known past) (hs : s.Distinct)
    (hnew : ∀ key ∈ s.keys, ∀ k, (k, key) ∉ known) :
    { m with scopes := s :: m.scopes }.Primed d known past where
  filled k x e he hk := by
    rw [slot?_push] at he
    split at he
    · obtain ⟨key, hkey, rfl⟩ := Option.map_eq_some_iff.mp he
      exact (hnew key (List.mem_of_find?_eq_some hkey) k hk).elim
    · exact h.filled k x e he hk
  distinct u hu := by
    rcases List.mem_cons.mp hu with rfl | hu
    · exact hs
    · exact h.distinct u hu

theorem pop {s : Scope} (h : m'.Primed d known past) (hs : m'.scopes = s :: m.scopes) :
    m.Primed d known past where
  filled k x e he := by
    refine h.filled k x e ?_
    obtain ⟨u, hu, -⟩ := Option.bind_eq_some_iff.mp he
    have hlt : k < m.scopes.length := by
      rw [Scopes.level?_eq] at hu
      have hlt := (List.getElem?_eq_some_iff.mp hu).1
      rwa [List.length_reverse] at hlt
    have hpush := slot?_push m s k x
    rw [if_neg (by omega), he, slot?] at hpush
    rw [slot?, hs]
    exact hpush
  distinct u hu := h.distinct u (by simp [hs, hu])

/-- An initializer fills the entry of its variable. What was known stays known, and the declaration
that it makes is known from now on. -/
theorem fill {c : Bool} {k : Nat} {e : Scope.Entry} {v : Label} (h : x.machine.Primed d known past)
    (hl : x.label.form = .initializer) (hv : x.operand? = some v)
    (hf : v.form = .variable c (some k)) (he : x.machine.slot? k v.token.value = some e)
    (hm : ∀ p ∈ known', p = (k, e.key))
    (hkeys : (x.outcome d).2.scopes.map Scope.keys = x.machine.scopes.map Scope.keys) :
    (x.outcome d).2.Primed d (known ++ known') (past ++ [x]) where
  filled j name e' he' hk := by
    obtain ⟨value, hleaves, hothers⟩ := Visit.leaves (d := d) hl hv hf he
    by_cases hj : (j, name) = (k, e.name)
    · cases hj
      obtain rfl := Option.some.inj (hleaves.slot.symm.trans he')
      exact ⟨x, List.mem_append_right _ (List.mem_singleton_self _), hleaves⟩
    · rw [hothers j name hj] at he'
      rcases List.mem_append.mp hk with hk | hk
      · obtain ⟨y, hy, hd⟩ := h.filled j name e' he' hk
        exact ⟨y, List.mem_append_left _ hy, hd⟩
      · have hkey := hm _ hk
        refine (hj ?_).elim
        rw [← slot?_name he']
        simp only [Scope.Entry.key, Prod.mk.injEq] at hkey
        rw [hkey.1, hkey.2.1]
  distinct s hs := by
    have hmem : s.keys ∈ x.machine.scopes.map Scope.keys := by
      rw [← hkeys]
      exact List.mem_map_of_mem hs
    obtain ⟨u, hu, he⟩ := List.mem_map.mp hmem
    rw [Scope.Distinct, ← he]
    exact h.distinct u hu

/-- A variable that is founded finds the declaration that it stands for. -/
theorem slot {z : Mention} (h : m.Primed d known past) (hz : z.isOuter = true)
    (hf : z.Founded known (m.scopes.map Scope.keys)) : ∃ k e, z.binding = some k ∧
      m.slot? k z.name = some e ∧
      if z.role = .declares then e.key = z.key
      else (k, e.key) ∈ known := by
  obtain ⟨k, keys, i, hb, hkeys, hi, hrole⟩ := hf
  rw [Mention.isOuter_iff.mp hz, List.nil_append, ← List.map_reverse, List.getElem?_map] at hkeys
  obtain ⟨s, hs, rfl⟩ := Option.map_eq_some_iff.mp hkeys
  have hmem : s ∈ m.scopes := List.mem_reverse.mp (List.mem_of_getElem? hs)
  have hfind := declarer?_of_nodup (h.distinct s hmem) hi
  rw [Scope.declarer?_keys] at hfind
  obtain ⟨e, he, rfl⟩ := Option.map_eq_some_iff.mp hfind
  have hslot : m.slot? k z.name = some e := by
    rw [slot?, Scopes.level?_eq, hs]
    exact he
  have hkey : e.key = (z.name, e.declarer) := by rw [Scope.Entry.key, slot?_name hslot]
  refine ⟨k, e, hb, hslot, ?_⟩
  split at hrole
  · rw [if_pos ‹_›, hkey, hrole.1]
    rfl
  · rw [if_neg ‹_›, hkey]
    exact hrole

end Machine.Primed

namespace Node

/-- Trees that are to be evaluated one after the other. They are grounded on what is known, and what
they declare is not known yet. -/
structure Runnable (known : List (Nat × Key)) (ctx : List (List Key)) (b : Bool) (ks : List Node) :
    Prop where
  settled : ∀ k ∈ ks, k.Settled
  fresh : ∀ k ∈ ks, k.Fresh
  entries : ∀ k ∈ ks, ∀ as es, .scope as es ∈ k.sights false → as = es ∧ (as.map Prod.fst).Nodup
  roles : b = true → ∀ k ∈ ks, k.form = .initializer
  distinct : ((ks.flatMap identifiers).map Prod.snd).Nodup
  apart : ∀ k key, (k, key) ∈ known → key.2 ∉ (ks.flatMap identifiers).map Prod.snd
  grounded : Mention.Grounded known ctx (ks.flatMap (resolved b))

theorem identifiers_of_made {k : Nat} {key : Key}
    (h : (k, key) ∈ (n.resolved b).flatMap Mention.made) : key.2 ∈ n.identifiers.map Prod.snd := by
  obtain ⟨z, hz, hm⟩ := List.mem_flatMap.mp h
  obtain ⟨x, hx, ha⟩ := List.mem_filterMap.mp hz
  have hkey : key = z.key := by
    unfold Mention.made at hm
    split at hm
    · obtain ⟨j, -, he⟩ := List.mem_map.mp hm
      exact (Prod.mk.inj he).2.symm
    · cases hm
  cases x with
  | scope _ _ => cases ha
  | mention u =>
    rw [Sight.analyzed?] at ha
    split at ha
    · cases ha
      refine (n.serials_sights b).subset ?_
      rw [hkey]
      exact List.mem_map.mpr ⟨z, List.mem_filterMap.mpr ⟨_, hx, rfl⟩, rfl⟩
    · cases ha

namespace Runnable

theorem head (h : Runnable known ctx b (n :: ks)) : Runnable known ctx b [n] where
  settled k hk := h.settled k (List.mem_cons.mpr (Or.inl (List.mem_singleton.mp hk)))
  fresh k hk := h.fresh k (List.mem_cons.mpr (Or.inl (List.mem_singleton.mp hk)))
  entries k hk := h.entries k (List.mem_cons.mpr (Or.inl (List.mem_singleton.mp hk)))
  roles hb k hk := h.roles hb k (List.mem_cons.mpr (Or.inl (List.mem_singleton.mp hk)))
  distinct := by
    have hd := h.distinct
    rw [List.flatMap_cons, List.map_append, List.nodup_append] at hd
    rw [List.flatMap_singleton]
    exact hd.1
  apart k key hk hm := by
    refine h.apart k key hk ?_
    rw [List.flatMap_singleton] at hm
    rw [List.flatMap_cons, List.map_append]
    exact List.mem_append_left _ hm
  grounded := by
    have hg := h.grounded
    rw [List.flatMap_cons, Mention.grounded_append] at hg
    rw [List.flatMap_singleton]
    exact hg.1

/-- What the first tree declares is known to the others. -/
theorem tail (h : Runnable known ctx b (n :: ks)) :
    Runnable (known ++ (n.resolved b).flatMap Mention.made) ctx b ks where
  settled k hk := h.settled k (List.mem_cons_of_mem _ hk)
  fresh k hk := h.fresh k (List.mem_cons_of_mem _ hk)
  entries k hk := h.entries k (List.mem_cons_of_mem _ hk)
  roles hb k hk := h.roles hb k (List.mem_cons_of_mem _ hk)
  distinct := by
    have hd := h.distinct
    rw [List.flatMap_cons, List.map_append, List.nodup_append] at hd
    exact hd.2.1
  apart k key hk hm := by
    have hd := h.distinct
    rw [List.flatMap_cons, List.map_append, List.nodup_append] at hd
    rcases List.mem_append.mp hk with hk | hk
    · refine h.apart k key hk ?_
      rw [List.flatMap_cons, List.map_append]
      exact List.mem_append_right _ hm
    · exact hd.2.2 _ (identifiers_of_made hk) _ hm rfl
  grounded := by
    have hg := h.grounded
    rw [List.flatMap_cons, Mention.grounded_append] at hg
    exact hg.2

theorem below {ctx' : List (List Key)} {c : Bool} (h : Runnable known ctx b [Node.mk l ks])
    (hj : js.Sublist ks) (hc : c = true → ∀ k ∈ js, k.form = .initializer)
    (hg : Mention.Grounded known ctx' (js.flatMap (resolved c))) : Runnable known ctx' c js := by
  have hids : ((js.flatMap identifiers).map Prod.snd).Sublist
      (([Node.mk l ks].flatMap identifiers).map Prod.snd) := by
    rw [List.flatMap_singleton, identifiers_mk]
    exact ((hj.flatMap _).trans (List.sublist_append_right _ _)).map _
  refine ⟨?_, ?_, ?_, hc, h.distinct.sublist hids, ?_, hg⟩
  · exact fun k hk => (settled_mk.mp (h.settled _ List.mem_cons_self)).2 k (hj.mem hk)
  · exact fun k hk => (fresh_mk.mp (h.fresh _ List.mem_cons_self)).2 k (hj.mem hk)
  · intro k hk as es hm
    exact h.entries _ List.mem_cons_self as es (scope_mem_mk.mpr (Or.inr ⟨k, hj.mem hk, hm⟩))
  · exact fun k key hk hm => h.apart k key hk (hids.mem hm)

theorem flags (h : Runnable known ctx b [Node.mk l ks]) :
    l.flags.evaluated = false ∧ l.flags.analyzed = true := by
  refine ⟨(fresh_mk.mp (h.fresh _ List.mem_cons_self)).1, ?_⟩
  obtain ⟨e, hf⟩ := (h.settled _ List.mem_cons_self).flags
  rw [flags_mk] at hf
  rw [hf]

end Runnable

/-- Evaluating a tree whose variables are grounded on what is known applies rules that are defined,
and what the tree declares is known afterwards. -/
def Safe (d : Option (Dispatcher σ)) (n : Node) : Prop :=
  ∀ (known : List (Nat × Key)) (past : List (Visit σ)) (b : Bool) (m : Machine σ),
    Runnable known (m.scopes.map Scope.keys) b [n] → m.Primed d known past →
      Visit.AllDefined d past (n.visits d m) ∧ ∀ n' m', n.evaluate d m = (.ok n', m') →
        m'.Primed d (known ++ (n.resolved b).flatMap Mention.made) (past ++ n.visits d m)

theorem safe_all (hs : ∀ k ∈ ks, k.Safe d) (h : Runnable known (m.scopes.map Scope.keys) b ks)
    (hm : m.Primed d known past) :
    Visit.AllDefined d past (visitsAll d ks m) ∧ ∀ js m', evaluateAll d ks m = (.ok js, m') →
      m'.Primed d (known ++ (ks.flatMap (resolved b)).flatMap Mention.made)
        (past ++ visitsAll d ks m) := by
  induction ks generalizing known past m with
  | nil =>
    refine ⟨trivial, ?_⟩
    intro js m' he
    cases he
    simpa [visitsAll] using hm
  | cons k ks ih =>
    obtain ⟨hvisits, hafter⟩ := hs k (by simp) known past b m h.head hm
    rw [visitsAll, Visit.allDefined_append]
    rcases hk : k.evaluate d m with ⟨f | k', m₁⟩
    · refine ⟨⟨hvisits, trivial⟩, ?_⟩
      intro js m' he
      obtain ⟨k', _, m₂, hk', -⟩ := evaluateAll_cons_ok.mp he
      rw [hk] at hk'
      cases hk'
    · have hkeys := keys_evaluate hk
      obtain ⟨hvisits', hafter'⟩ := ih (fun j hj => hs j (by simp [hj])) (hkeys ▸ h.tail)
        (hafter k' m₁ hk)
      refine ⟨⟨hvisits, hvisits'⟩, ?_⟩
      intro js m' he
      obtain ⟨_, js', m₂, hk', he, rfl⟩ := evaluateAll_cons_ok.mp he
      rw [hk] at hk'
      cases hk'
      have hp := hafter' js' m' he
      rwa [List.append_assoc, ← List.flatMap_append, ← List.flatMap_cons, List.append_assoc] at hp

/-- A block is left with the scopes around it. -/
theorem inside_scopes {scope scope' : Scope}
    (h : Evaluation.inside scope (evaluateAll d ks) m = (.ok (js, scope'), m')) :
    ∃ m₁, evaluateAll d ks { m with scopes := scope :: m.scopes } = (.ok js, m₁) ∧
      m₁.scopes = scope' :: m'.scopes := by
  rw [Evaluation.inside] at h
  split at h
  · next js' m₁ hjs =>
    have hkeys := keys_evaluateAll hjs
    split at h
    · next s outer hs =>
      cases h
      exact ⟨m₁, hjs, hs⟩
    · next hs =>
      rw [hs] at hkeys
      cases hkeys
  · cases h

theorem safe_block {kind : BlockKind} {scope : Scope} (hf : l.form = .block kind scope)
    (hs : ∀ k ∈ ks, k.Safe d) : (mk l ks).Safe d := by
  intro known past b m h hm
  obtain ⟨he, ha⟩ := h.flags
  have hblock := resolved_block b ks hf
  have hgrounded := h.grounded
  rw [List.flatMap_singleton, Mention.grounded_within hblock] at hgrounded
  obtain ⟨hentered, hdistinct⟩ := h.entries _ List.mem_cons_self scope.keys (ks.flatMap entered)
    (scope_mem_mk.mpr (Or.inl ⟨kind, scope, hf, rfl, rfl⟩))
  have hkids : Runnable known ((scope :: m.scopes).map Scope.keys) false ks :=
    h.below (.refl _) (by simp) hgrounded
  have hnew : ∀ key ∈ scope.keys, ∀ k, (k, key) ∉ known := by
    intro key hkey k hk
    rw [hentered] at hkey
    obtain ⟨j, hj, hkey⟩ := List.mem_flatMap.mp hkey
    have hid := Staged.entered_subset (Or.inl (hkids.settled j hj)) hkey
    exact hkids.apart k key hk (List.mem_map_of_mem (List.mem_flatMap.mpr ⟨j, hj, hid⟩))
  obtain ⟨hvisits, hafter⟩ := safe_all (m := { m with scopes := scope :: m.scopes }) hs hkids
    (hm.push hdistinct hnew)
  rw [visits_block he ha hf, Mention.made_within hblock]
  refine ⟨hvisits, ?_⟩
  intro n' m' hn
  rw [evaluate_block he ha hf] at hn
  obtain ⟨⟨js, s⟩, m₂, hin, hn⟩ := run_bind_ok.mp hn
  obtain ⟨l', m₃, hl, hn⟩ := run_bind_ok.mp hn
  cases hn
  obtain ⟨m₁, hjs, hscopes⟩ := inside_scopes hin
  have haloof := Visit.aloof (x := ⟨{ l with form := .block kind s }, js, m₂⟩) d rfl
  have hsame := (haloof m₂).1
  rw [hl] at hsame
  exact ((hafter js m₁ hjs).pop hscopes).of_scopes hsame

/-- A node that is no block: first its children, then its own rule. -/
theorem safe_own (he : l.flags.evaluated = false) (ha : l.flags.analyzed = true)
    (hb : l.isBlock = false) (hk : Visit.AllDefined d past (visitsAll d ks m))
    (hown : ∀ js m₁, evaluateAll d ks m = (.ok js, m₁) →
      Visit.Defined d (past ++ visitsAll d ks m) ⟨l, js, m₁⟩ ∧
        ∀ l' m', l.evaluate d js m₁ = (.ok l', m') →
          m'.Primed d known (past ++ visitsAll d ks m ++ [⟨l, js, m₁⟩])) :
    Visit.AllDefined d past ((mk l ks).visits d m) ∧
      ∀ n' m', (mk l ks).evaluate d m = (.ok n', m') →
        m'.Primed d known (past ++ (mk l ks).visits d m) := by
  rw [visits_other he ha hb, evaluate_other he ha hb, Visit.allDefined_append]
  rcases hjs : evaluateAll d ks m with ⟨f | js, m₁⟩
  · refine ⟨⟨hk, trivial⟩, ?_⟩
    intro n' m' hn
    obtain ⟨js, m₁, hjs', -⟩ := run_bind_ok.mp hn
    rw [hjs] at hjs'
    cases hjs'
  · obtain ⟨hdefined, hafter⟩ := hown js m₁ hjs
    refine ⟨⟨hk, hdefined, trivial⟩, ?_⟩
    intro n' m' hn
    obtain ⟨js', m₂, hjs', hn⟩ := run_bind_ok.mp hn
    rw [hjs] at hjs'
    cases hjs'
    obtain ⟨l', m₃, hl, hn⟩ := run_bind_ok.mp hn
    cases hn
    rw [← List.append_assoc]
    exact hafter l' m' hl

/-- A rule that uses no variable. -/
theorem safe_idle (he : l.flags.evaluated = false) (ha : l.flags.analyzed = true)
    (hb : l.isBlock = false) (hk : Visit.AllDefined d past (visitsAll d ks m))
    (hafter : ∀ js m', evaluateAll d ks m = (.ok js, m') →
      m'.Primed d known (past ++ visitsAll d ks m))
    (href : ∀ k, l.form ≠ .variable false k) (hinit : l.form ≠ .initializer) :
    Visit.AllDefined d past ((mk l ks).visits d m) ∧
      ∀ n' m', (mk l ks).evaluate d m = (.ok n', m') →
        m'.Primed d known (past ++ (mk l ks).visits d m) := by
  refine safe_own he ha hb hk fun js m₁ hjs => ⟨?_, ?_⟩
  · exact ⟨fun k hf => (href k hf).elim, fun hf => (hinit hf).elim⟩
  · intro l' m' hl
    have hnone : (⟨l, js, m₁⟩ : Visit σ).operand? = none := by
      cases hv : (⟨l, js, m₁⟩ : Visit σ).operand? with
      | none => rfl
      | some v =>
        rcases Visit.operand?_cases hv with ⟨-, k, hf⟩ | ⟨hf, -⟩
        · exact (href k hf).elim
        · exact (hinit hf).elim
    have hsame := (Visit.aloof d hnone m₁).1
    rw [hl] at hsame
    exact ((hafter js m₁ hjs).of_scopes hsame).later (List.subset_append_left _ _)

theorem resolved_variable {c : Bool} {k : Option Nat} (hf : l.form = .variable c k)
    (ha : l.flags.analyzed = true) : (mk l []).resolved b = [l.mention k] := by
  have hown : (l.mention k).analyzed = true := ha
  rw [resolved, sights_variable hf, List.filterMap_cons, Sight.analyzed?, if_pos hown]
  rfl

theorem resolved_initializer {v : Label} {c : Bool} {k : Option Nat} (hf : l.form = .initializer)
    (hv : v.form = .variable c k) (ha : l.flags.analyzed = true) :
    (mk l (mk v [] :: ks)).resolved b =
      ks.flatMap (resolved false) ++ [l.introduces b v k] := by
  have hown : (l.introduces b v k).analyzed = true := ha
  rw [resolved, sights_initializer hf hv, List.filterMap_append, resolved_flatMap,
    List.filterMap_cons, Sight.analyzed?, if_pos hown]
  rfl

/-- A reference finds a declaration that is known. -/
theorem safe_reference {k : Option Nat} (hf : l.form = .variable false k) : (mk l []).Safe d := by
  intro known past b m h hm
  obtain ⟨he, ha⟩ := h.flags
  have hgrounded := h.grounded
  rw [List.flatMap_singleton, resolved_variable hf ha] at hgrounded
  obtain ⟨j, e, hj, hslot, hknown⟩ := hm.slot (z := l.mention k) rfl hgrounded.1
  rw [if_neg (by simp [Label.mention])] at hknown
  have hvar : l.form = .variable false (some j) := by
    rw [hf]
    exact congrArg _ hj
  have hmade : ([l.mention k].flatMap Mention.made) = [] := rfl
  rw [resolved_variable hf ha, hmade, List.append_nil]
  refine safe_own he ha (by simp [Label.isBlock, hf]) trivial ?_
  intro js m₁ hjs
  cases hjs
  constructor
  · refine ⟨fun i hi => ?_, fun hi => ?_⟩
    · have hij : i = some j := by
        rw [hvar] at hi
        cases hi
        rfl
      refine ⟨j, e, hij, hslot, ?_⟩
      simpa [visitsAll] using hm.filled j _ e hslot hknown
    · cases hf.symm.trans hi
  · intro l' m' hl
    have hread := Visit.outcome_reference ⟨l, [], m⟩ d hvar hslot
    rw [Visit.outcome, hl] at hread
    cases hread
    exact hm.later (by simp)

/-- The variable that an initializer starts with yields nothing by itself. -/
theorem evaluate_declared {k : Option Nat} (hf : l.form = .variable true k)
    (he : l.flags.evaluated = false) (ha : l.flags.analyzed = true) :
    (mk l []).evaluate d m = (.ok (mk l.markEvaluated []), m) ∧
      (mk l []).visits d m = [⟨l, [], m⟩] := by
  have hb : l.isBlock = false := by simp [Label.isBlock, hf]
  have hnil : evaluateAll d [] m = (.ok [], m) := rfl
  constructor
  · have hrule : l.evaluate d [] m = (.ok l, m) := by
      simp only [Label.evaluate, Label.evaluateVariable, hf]
      rfl
    rw [evaluate_other he ha hb]
    exact run_bind_ok.mpr ⟨[], m, hnil, run_bind_ok.mpr ⟨l, m, hrule, rfl⟩⟩
  · rw [visits_other he ha hb, hnil]
    rfl

/-- An initializer finds its name declared: it declares the name itself, or renews one that is
known. -/
theorem safe_initializer {v : Label} {k : Option Nat} (hf : l.form = .initializer)
    (hv : v.form = .variable true k) (hs : ∀ i ∈ ks, i.Safe d) : (mk l (mk v [] :: ks)).Safe d := by
  intro known past b m h hm
  obtain ⟨he, ha⟩ := h.flags
  have hgrounded := h.grounded
  rw [List.flatMap_singleton, resolved_initializer hf hv ha, Mention.grounded_append] at hgrounded
  obtain ⟨hrest, hown, -⟩ := hgrounded
  have hkids : Runnable known (m.scopes.map Scope.keys) false ks :=
    h.below (List.sublist_cons_self _ _) (by simp) hrest
  obtain ⟨hvf, hva⟩ : v.flags.evaluated = false ∧ v.flags.analyzed = true := by
    have hset := (settled_mk.mp (h.settled _ List.mem_cons_self)).2 (mk v []) List.mem_cons_self
    have hfresh := (fresh_mk.mp (h.fresh _ List.mem_cons_self)).2 (mk v []) List.mem_cons_self
    obtain ⟨c, hfl⟩ := hset.flags
    rw [flags_mk] at hfl
    exact ⟨hfresh.flags, by rw [hfl]⟩
  obtain ⟨hfirst, hvisit⟩ := evaluate_declared (d := d) (m := m) hv hvf hva
  have hvisits : visitsAll d (mk v [] :: ks) m = ⟨v, [], m⟩ :: visitsAll d ks m := by
    rw [visitsAll, hvisit, hfirst]
    rfl
  obtain ⟨hall, hafter⟩ := safe_all hs hkids (hm.later (List.subset_append_left past [⟨v, [], m⟩]))
  rw [resolved_initializer hf hv ha, List.flatMap_append, List.flatMap_singleton,
    ← List.append_assoc]
  refine safe_own he ha (by simp [Label.isBlock, hf]) ?_ ?_
  · rw [hvisits]
    refine ⟨⟨fun i hi => ?_, fun hi => ?_⟩, hall⟩ <;> cases hv.symm.trans hi
  intro js m₁ hjs
  obtain ⟨_, js, m₂, hv', hjs, rfl⟩ := evaluateAll_cons_ok.mp hjs
  rw [hfirst] at hv'
  cases hv'
  have hprimed := hafter js m₁ hjs
  rw [List.append_assoc, List.singleton_append, ← hvisits] at hprimed
  rw [← keys_evaluateAll hjs] at hown
  obtain ⟨j, e, hj, hslot, hrole⟩ := hprimed.slot (z := l.introduces b v k) rfl hown
  have hbound : k = some j := hj
  have hvar : v.markEvaluated.form = .variable true (some j) := by rw [← hbound]; exact hv
  have hop : (⟨l, mk v.markEvaluated [] :: js, m₁⟩ : Visit σ).operand? = some v.markEvaluated := by
    simp [Visit.operand?, hf, isVariable, Label.markEvaluated, hv]
  constructor
  · refine ⟨fun i hi => ?_, fun _ => ⟨_, true, j, e, hop, hvar, hslot⟩⟩
    cases hf.symm.trans hi
  · intro l' m' hl
    have hkeys := Scopes.keys_of_outline
      (Label.dispatches_evaluate d l (mk v.markEvaluated [] :: js) m₁).1
    -- A declaration makes its own key known, and a renewal makes none.
    have hmade : ∀ p ∈ (l.introduces b v k).made, p = (j, e.key) := by
      intro p hp
      unfold Mention.made at hp
      split at hp
      · next hr =>
        rw [if_pos hr] at hrole
        rw [hj] at hp
        rw [hrole]
        simpa using hp
      · cases hp
    have hfill := hprimed.fill hf hop hvar hslot hmade hkeys
    rwa [Visit.outcome, hl] at hfill

/-- Evaluation meets the variables of a tree in the order in which they are grounded. -/
theorem safe (d : Option (Dispatcher σ)) (n : Node) : n.Safe d := by
  induction n using induct with
  | h l ks ih =>
    intro known past b m h hm
    obtain ⟨he, ha⟩ := h.flags
    have hset := settled_mk.mp (h.settled _ List.mem_cons_self)
    have hshape := hset.1.shaped
    have hgrounded := h.grounded
    rw [List.flatMap_singleton] at hgrounded
    cases hf : l.form with
    | block kind scope => exact safe_block hf ih known past b m h hm
    | initializer =>
      rw [hf] at hshape
      obtain ⟨v, rest, k, rfl, hv⟩ :=
        initializer_cons hshape fun k hm => (hset.2 k hm).done.shaped
      exact safe_initializer hf hv (fun i hi => ih i (List.mem_cons_of_mem _ hi)) known past b m h
        hm
    | «variable» c k =>
      rw [hf] at hshape
      obtain rfl : ks = [] := by simpa [Form.Shaped] using hshape
      cases c with
      | false => exact safe_reference hf known past b m h hm
      | true =>
        have hmade : ([l.mention k].flatMap Mention.made) = [] := rfl
        rw [resolved_variable hf ha, hmade, List.append_nil]
        refine safe_idle he ha (by simp [Label.isBlock, hf]) trivial ?_ (by simp [hf])
          (by simp [hf])
        intro js m' hjs
        cases hjs
        exact hm.later (by simp)
    | declaration r =>
      have hinit : ∀ k ∈ ks, k.form = .initializer := by
        intro k hk
        rw [hf] at hshape
        refine (initializer_iff k).mpr (hshape.2 _ ?_)
        rw [List.map_map]
        exact List.mem_map.mpr ⟨k, hk, rfl⟩
      have hresolved : (mk l ks).resolved b = ks.flatMap (resolved r) := by
        rw [resolved, sights_declaration hf, resolved_flatMap]
      rw [hresolved] at hgrounded ⊢
      obtain ⟨hall, hafter⟩ := safe_all ih (h.below (.refl _) (fun _ => hinit) hgrounded) hm
      exact safe_idle he ha (by simp [Label.isBlock, hf]) hall hafter (by simp [hf]) (by simp [hf])
    | _ =>
      obtain rfl : b = false := by
        by_contra hne
        have hform := h.roles (by simpa using hne) _ List.mem_cons_self
        rw [form_mk, hf] at hform
        cases hform
      have hresolved : (mk l ks).resolved false = ks.flatMap (resolved false) := by
        rw [resolved, sights_other (by simp [Label.isBlock, hf]) (by simp [hf]) (by simp [hf])
          (by simp [hf]), resolved_flatMap]
      rw [hresolved] at hgrounded ⊢
      obtain ⟨hall, hafter⟩ := safe_all ih (h.below (.refl _) (by simp) hgrounded) hm
      exact safe_idle he ha (by simp [Label.isBlock, hf]) hall hafter (by simp [hf]) (by simp [hf])

end Node

/-! From trees to runs. -/

namespace Progress

variable {rs ps : List Node}

/-- A pass has evaluated some of the fragments that were ready and has come to the others. What the
first declare is known from then on. -/
structure Through (d : Option (Dispatcher σ)) (known : List (Nat × Key)) (past : List (Visit σ))
    (m : Machine σ) (done done' rest : List Node) (p : Progress σ) : Prop where
  fragments : p.fragments = done' ++ rest
  sights : done'.map (Node.sights false) = done.map (Node.sights false)
  evaluated : ∀ n ∈ done', n.flags.evaluated = true
  keys : p.machine.scopes.map Scope.keys = m.scopes.map Scope.keys
  primed : p.machine.Primed d
    (known ++ (done.flatMap (Node.resolved false)).flatMap Mention.made) past

theorem through_nil {p : Progress σ} {rest : List Node} (hm : m.Primed d known past)
    (hf : p.fragments = rest) (hs : p.machine.scopes = m.scopes) :
    Through d known past m [] [] rest p where
  fragments := hf
  sights := rfl
  evaluated := by simp
  keys := by rw [hs]
  primed := by simpa using hm.of_scopes hs

theorem Through.cons {p : Progress σ} {done done' rest : List Node} {n' : Node}
    (he : n.evaluate d m = (.ok n', m'))
    (h : Through d (known ++ (n.resolved false).flatMap Mention.made) past m' done done' rest p) :
    Through d known past m (n :: done) (n' :: done') rest
      { p with fragments := n' :: p.fragments, values := n'.result :: p.values } where
  fragments := by
    dsimp only
    rw [h.fragments]
    rfl
  sights := by rw [List.map_cons, List.map_cons, h.sights, Node.sights_evaluate he]
  evaluated k hk := by
    rcases List.mem_cons.mp hk with rfl | hk
    · obtain ⟨-, _, -, -, -, hok⟩ := Node.dispatches_evaluate d n m
      rw [he] at hok
      rw [(hok k rfl).2.2]
    · exact h.evaluated k hk
  keys := h.keys.trans (Node.keys_evaluate he)
  primed := by
    rw [List.flatMap_cons, List.flatMap_append, ← List.append_assoc]
    exact h.primed

/-- A pass evaluates fragments one after the other, some of those that are ready. -/
theorem defined (interrupts : List Bool)
    (h : Node.Runnable known (m.scopes.map Scope.keys) false rs)
    (hr : ∀ r ∈ rs, r.isReady = true) (hp : ∀ p ∈ ps, p.Raw) (hm : m.Primed d known past) :
    Visit.AllDefined d past (visits d interrupts m (rs ++ ps)) ∧
      ((∀ f, (of d interrupts m (rs ++ ps)).stop ≠ some (.failed f)) →
        ∃ done done' left, rs = done ++ left ∧
          Through d known (past ++ visits d interrupts m (rs ++ ps)) m done done' (left ++ ps)
            (of d interrupts m (rs ++ ps))) := by
  induction rs generalizing known past m interrupts with
  | nil =>
    have hend : visits d interrupts m ps = [] ∧
        of d interrupts m ps = { fragments := ps, machine := m } := by
      cases ps with
      | nil => exact ⟨rfl, rfl⟩
      | cons p ps =>
        have hraw := hp p (by simp)
        exact visits_unready interrupts m hraw.flags.2 hraw.not_ready
    rw [List.nil_append, hend.1, hend.2, List.append_nil]
    exact ⟨trivial, fun _ => ⟨[], [], [], rfl, through_nil hm rfl rfl⟩⟩
  | cons n rs ih =>
    have hn : n.flags.evaluated = false := (h.fresh n (by simp)).flags
    have hready := hr n (by simp)
    rw [List.cons_append]
    by_cases hi : (m.cancelled || interrupts.headD false) = true
    · obtain ⟨hvisits, hof⟩ := visits_interrupted (d := d) hn hready hi
      rw [hvisits, hof, List.append_nil]
      exact ⟨trivial, fun _ => ⟨[], [], n :: rs, rfl, through_nil hm rfl rfl⟩⟩
    · obtain ⟨hown, hafter⟩ := Node.safe d n known past false m h.head hm
      rcases he : n.evaluate d m with ⟨f | n', m₁⟩
      · obtain ⟨hvisits, hstop⟩ := visits_failed (rs ++ ps) hn hready hi he
        rw [hvisits]
        exact ⟨hown, fun hne => (hne f hstop).elim⟩
      · have hkeys := Node.keys_evaluate he
        obtain ⟨hvisits, hof⟩ := visits_evaluated (rs ++ ps) hn hready hi he
        obtain ⟨hothers, hrest⟩ := ih interrupts.tail (hkeys ▸ h.tail)
          (fun r hm => hr r (by simp [hm])) (hafter n' m₁ he)
        rw [hvisits, hof, Visit.allDefined_append]
        refine ⟨⟨hown, hothers⟩, fun hne => ?_⟩
        obtain ⟨done, done', left, rfl, hthrough⟩ := hrest hne
        rw [List.append_assoc] at hthrough
        exact ⟨n :: done, n' :: done', left, rfl, hthrough.cons he⟩

end Progress

namespace Tree

variable {t u : Tree} {es rs ps : List Node} {w w' : σ}

/-- The declarations that the evaluated fragments of a tree have made. -/
def written (t : Tree) : List (Nat × Key) :=
  ((t.fragments.filter (·.flags.evaluated)).flatMap (Node.resolved false)).flatMap Mention.made

theorem written_of_append (es rs : List Node) (hf : t.fragments = es ++ rs)
    (he : ∀ n ∈ es, n.flags.evaluated = true) (hr : ∀ n ∈ rs, n.flags.evaluated = false) :
    t.written = (es.flatMap (Node.resolved false)).flatMap Mention.made := by
  have hnone : rs.filter (·.flags.evaluated) = [] :=
    List.filter_eq_nil_iff.mpr fun n hn => by simp [hr n hn]
  rw [written, hf, List.filter_append, List.filter_eq_self.mpr he, hnone, List.append_nil]

theorem Lined.unevaluated (hl : Lined es rs ps) : ∀ n ∈ rs ++ ps, n.flags.evaluated = false := by
  intro n hn
  rcases List.mem_append.mp hn with hn | hn
  · exact (hl.ready n hn).2
  · exact (hl.raw n hn).flags.2

/-- What has been made in the global scope is declared there. -/
theorem Grounded.globals (h : t.Grounded) {key : Key} (hk : (0, key) ∈ t.written) :
    key ∈ t.globals.keys := by
  obtain ⟨z, hz, hm⟩ := List.mem_flatMap.mp hk
  obtain ⟨n, hn, hz⟩ := List.mem_flatMap.mp hz
  have hmem : z ∈ t.fragments.flatMap (Node.resolved false) :=
    List.mem_flatMap.mpr ⟨n, List.mem_of_mem_filter hn, hz⟩
  obtain ⟨known, k, keys, e, hb, hkeys, he, hrole⟩ := h.root.founded hmem
  unfold Mention.made at hm
  split at hm
  · next hr =>
    rw [hb] at hm
    obtain ⟨rfl, rfl⟩ : 0 = k ∧ key = z.key := by simpa using hm
    rw [if_pos hr] at hrole
    obtain rfl : t.globals.keys = keys := by simpa using hkeys
    obtain ⟨rfl, -⟩ := hrole
    exact he
  · cases hm

/-- Insertions and resets evaluate nothing, and the global scope is extended at most. -/
theorem Grounded.edit (h : t.Grounded) (hm : (t.machine w).Primed d t.written past) {new : List Key}
    (hg : u.globals = t.globals.extend new) (hd : u.globals.Distinct)
    (hev : ∀ n ∈ u.fragments, n.flags.evaluated = true → n ∈ t.fragments) :
    (u.machine w').Primed d u.written past := by
  have hsub : u.written ⊆ t.written := by
    intro p hp
    obtain ⟨z, hz, hp⟩ := List.mem_flatMap.mp hp
    obtain ⟨n, hn, hz⟩ := List.mem_flatMap.mp hz
    obtain ⟨hn, he⟩ := List.mem_filter.mp hn
    have hmem : n ∈ t.fragments.filter (·.flags.evaluated) :=
      List.mem_filter.mpr ⟨hev n hn he, he⟩
    exact List.mem_flatMap.mpr ⟨z, List.mem_flatMap.mpr ⟨n, hmem, hz⟩, hp⟩
  constructor
  · intro k x e he hk
    have hname := Machine.slot?_name he
    rw [Machine.slot?, Tree.machine] at he
    obtain ⟨s, hs, he⟩ := Option.bind_eq_some_iff.mp he
    obtain ⟨rfl, rfl⟩ : 0 = k ∧ u.globals = s := by simpa [Scopes.level?] using hs
    have hold : e.key ∈ t.globals.keys := h.globals (hsub hk)
    -- The name was declared before, so that nothing that is new has it.
    have hnew : ∀ key ∈ new, key.1 ≠ x := by
      intro key hkey hx
      rw [Scope.Distinct, hg, Scope.keys_extend, List.map_append, List.nodup_append] at hd
      exact hd.2.2 _ (List.mem_map_of_mem hold) _ (List.mem_map_of_mem hkey) (hname.trans hx.symm)
    rw [hg, Scope.find?_extend hnew] at he
    refine hm.filled 0 x e ?_ (hsub hk)
    rw [Machine.slot?, Tree.machine]
    exact he
  · intro s hs
    obtain rfl : s = u.globals := List.mem_singleton.mp hs
    exact hd

theorem Sound.globals_insert (h : t.Sound) (tok : Token) :
    ∃ new, (t.insert tok).tree.globals = t.globals.extend new := by
  obtain ⟨-, new, -, -, hg, -⟩ := (Twins.insert h h h.twins (.refl _) tok).tree.added
  exact ⟨new, hg⟩

theorem Sound.globals_reset (h : t.Sound) : ∃ new, t.reset.tree.globals = t.globals.extend new := by
  obtain ⟨-, new, -, -, hg, -⟩ := (h.twins.reset h.stands h.stands).tree.added
  exact ⟨new, hg⟩

/-- The fragments that are ready can be evaluated. -/
theorem Reachable.runnable (h : t.Reachable) (hg : t.Grounded) (hl : Lined es rs ps)
    (hf : t.fragments = es ++ rs ++ ps) :
    Node.Runnable t.written [t.globals.keys] false rs := by
  obtain ⟨hsound, hfresh⟩ := h.sound_fresh
  have hmem : ∀ n ∈ rs, n ∈ t.fragments := fun n hn => by simp [hf, hn]
  have hids := hsound.numbered.distinct
  rw [identifiers, hf, List.flatMap_append, List.flatMap_append, List.map_append, List.map_append,
    List.map_append] at hids
  have hids := (List.nodup_append.mp (List.nodup_append.mp hids).1).1
  have hroot := hg.root
  rw [hf, List.flatMap_append, List.flatMap_append, Mention.grounded_append,
    Mention.grounded_append] at hroot
  rw [written_of_append es (rs ++ ps) (hf.trans (List.append_assoc ..))
    (fun n hn => (hl.evaluated n hn).2) hl.unevaluated]
  refine ⟨?_, ?_, ?_, by simp, (List.nodup_append.mp hids).2.1, ?_, ?_⟩
  · exact fun n hn => (h.staged.fragments n (hmem n hn)).settled_of_ready (hl.ready n hn).1
  · exact fun n hn => hfresh.fragments n (hmem n hn) (hl.ready n hn).2
  · exact fun n hn => (h.kept.root.kept n (hmem n hn)).entries
  · intro k key hk hm
    obtain ⟨z, hz, hk⟩ := List.mem_flatMap.mp hk
    obtain ⟨n, hn, hz⟩ := List.mem_flatMap.mp hz
    have hid := Node.identifiers_of_made (List.mem_flatMap.mpr ⟨z, hz, hk⟩)
    refine (List.nodup_append.mp hids).2.2 key.2 ?_ key.2 hm rfl
    rw [List.map_flatMap]
    exact List.mem_flatMap.mpr ⟨n, hn, hid⟩
  · simpa using hroot.1.2

/-- What evaluation changes of the fragments and of the global scope does not matter. -/
theorem Grounded.revise (h : t.Grounded) {fs : List Node} {g : Scope}
    (hf : fs.flatMap (Node.resolved false) = t.fragments.flatMap (Node.resolved false))
    (hk : g.keys = t.globals.keys) : { t with fragments := fs, globals := g }.Grounded where
  root := by
    dsimp only
    rw [hf, hk]
    exact h.root
  path p rest hp := by
    have hback : { t with fragments := fs, globals := g }.backdrop rest = t.backdrop rest := by
      rw [backdrop, backdrop, hk]
    rw [hback]
    exact h.path p rest hp

/-- An evaluation applies rules that are defined. Unless it fails, what it declares is known
afterwards, and the tree is grounded as before. -/
theorem Grounded.evaluate (hg : t.Grounded) (h : t.Reachable)
    (hm : (t.machine w).Primed d t.written past) (cancelled : Bool) (interrupts : List Bool) :
    Visit.AllDefined d past (t.visits d w cancelled interrupts) ∧
      ((∀ f, (t.evaluate d w cancelled interrupts).stop ≠ some (.failed f)) →
        (t.evaluate d w cancelled interrupts).tree.Grounded ∧
          ((t.evaluate d w cancelled interrupts).tree.machine
              (t.evaluate d w cancelled interrupts).world).Primed d
            (t.evaluate d w cancelled interrupts).tree.written
            (past ++ t.visits d w cancelled interrupts)) := by
  obtain ⟨es, rs, ps, hf, hl⟩ := h.inLine_swept.1
  have hes : ∀ n ∈ es, n.flags.evaluated = true := fun n hn => (hl.evaluated n hn).2
  have hm' : (⟨[t.globals], w, cancelled, []⟩ : Machine σ).Primed d t.written past :=
    hm.of_scopes rfl
  obtain ⟨hvisits, hafter⟩ := Progress.defined (d := d) interrupts (h.runnable hg hl hf)
    (fun r hr => (hl.ready r hr).1) hl.raw hm'
  obtain ⟨hskip, hof⟩ := Progress.visits_skip (d := d) interrupts
    ⟨[t.globals], w, cancelled, []⟩ (rs ++ ps) hes
  rw [← List.append_assoc, ← hf] at hskip hof
  rw [Tree.visits, hskip]
  refine ⟨hvisits, fun hne => ?_⟩
  rw [Tree.evaluate, hof] at hne
  obtain ⟨done, done', left, rfl, hthrough⟩ := hafter hne
  obtain ⟨g, hscopes, hgk⟩ := List.map_eq_singleton_iff.mp hthrough.keys
  have htree : (t.evaluate d w cancelled interrupts).tree =
      { t with fragments := es ++ (done' ++ (left ++ ps)), globals := g } := by
    rw [Tree.evaluate, hof]
    dsimp only
    rw [hthrough.fragments, hscopes]
    rfl
  have hsame : done'.flatMap (Node.resolved false) = done.flatMap (Node.resolved false) := by
    rw [← Node.resolved_flatMap, ← Node.resolved_flatMap, List.flatMap_def, List.flatMap_def,
      hthrough.sights]
  rw [htree]
  constructor
  · refine hg.revise ?_ hgk
    rw [hf]
    simp only [List.flatMap_append, List.append_assoc, hsame]
  · have hwritten : written { t with fragments := es ++ (done' ++ (left ++ ps)), globals := g } =
        t.written ++ (done.flatMap (Node.resolved false)).flatMap Mention.made := by
      rw [written_of_append es _ (hf.trans (List.append_assoc ..)) hes hl.unevaluated,
        written_of_append (es ++ done') (left ++ ps) (by simp) ?_ ?_,
        List.flatMap_append, hsame, List.flatMap_append]
      · intro n hn
        exact (List.mem_append.mp hn).elim (hes n) (hthrough.evaluated n)
      · intro n hn
        refine hl.unevaluated n ?_
        rw [List.append_assoc]
        exact List.mem_append_right _ hn
    rw [hwritten]
    exact hthrough.primed.of_scopes hscopes.symm

end Tree

namespace Run

variable {r : Run σ} {w : σ} {cs : List Call} {c : Call}

/-- The rules that a call applies. -/
def applied (d : Option (Dispatcher σ)) (r : Run σ) : Call → List (Visit σ)
  | .evaluate cancelled interrupts => r.tree.visits d r.world cancelled interrupts
  | _ => []

/-- The rules that the calls of a run apply, in their order. -/
def history (d : Option (Dispatcher σ)) : Run σ → List Call → List (Visit σ)
  | _, [] => []
  | r, c :: cs => r.applied d c ++ history d (r.step d c) cs

theorem applied_edit (r : Run σ) (hc : c.edits = true) : r.applied d c = [] := by
  cases c with
  | evaluate _ _ => cases hc
  | _ => rfl

theorem history_concat (r : Run σ) (cs : List Call) (c : Call) :
    history d r (cs ++ [c]) = history d r cs ++ (cs.foldl (step d) r).applied d c := by
  induction cs generalizing r with
  | nil => simp [history]
  | cons a cs ih => rw [List.cons_append, history, ih, history, List.append_assoc, List.foldl_cons]

/-- The tree of a run is grounded, the rules that have been applied are defined, and the global
scope holds what they have left there. -/
structure Primed (d : Option (Dispatcher σ)) (past : List (Visit σ)) (r : Run σ) : Prop where
  grounded : r.tree.Grounded
  defined : Visit.AllDefined d [] past
  primed : (r.tree.machine r.world).Primed d r.tree.written past

theorem primed_fresh (d : Option (Dispatcher σ)) (w : σ) : Primed d [] { world := w } where
  grounded := Tree.grounded_fresh
  defined := trivial
  primed := by
    constructor
    · intro k x e he hk
      cases hk
    · intro s hs
      obtain rfl : s = {} := List.mem_singleton.mp hs
      exact List.nodup_nil

theorem Primed.edit (h : r.Primed d past) (hr : r.tree.Reachable)
    (hr' : (r.step d c).tree.Reachable) (hc : c.edits = true) : (r.step d c).Primed d past := by
  obtain ⟨hsound, hfresh⟩ := hr.sound_fresh
  cases c with
  | insert tok =>
    obtain ⟨new, hg⟩ := hsound.globals_insert tok
    exact ⟨h.grounded.insert hr tok, h.defined, h.grounded.edit h.primed hg hr'.kept.root.distinct
      (Tree.carries_insert hfresh hsound tok).evaluated⟩
  | reset =>
    obtain ⟨new, hg⟩ := hsound.globals_reset
    exact ⟨h.grounded.reset hr, h.defined, h.grounded.edit h.primed hg hr'.kept.root.distinct
      (Tree.carries_reset hfresh hsound.opened).evaluated⟩
  | evaluate _ _ => cases hc

/-- Whatever call comes next, the rules that it applies are defined. -/
theorem Primed.applied (h : r.Primed d past) (hr : r.tree.Reachable) (c : Call) :
    Visit.AllDefined d [] (past ++ r.applied d c) := by
  rw [Visit.allDefined_append]
  refine ⟨h.defined, ?_⟩
  cases c with
  | evaluate cancelled interrupts => exact (h.grounded.evaluate hr h.primed _ _).1
  | _ => trivial

theorem Primed.step (h : r.Primed d past) (hr : r.tree.Reachable)
    (hr' : (r.step d c).tree.Reachable) (hu : (r.step d c).Unfailing) :
    (r.step d c).Primed d (past ++ r.applied d c) := by
  cases c with
  | evaluate cancelled interrupts =>
    have hstop : ∀ f, (r.tree.evaluate d r.world cancelled interrupts).stop ≠ some (.failed f) := by
      intro f hf
      refine hu f ?_
      simp [Run.step, hf]
    obtain ⟨hgrounded, hprimed⟩ := (h.grounded.evaluate hr h.primed cancelled interrupts).2 hstop
    exact ⟨hgrounded, h.applied hr (.evaluate cancelled interrupts), hprimed⟩
  | _ =>
    rw [applied_edit r rfl, List.append_nil]
    exact h.edit hr hr' rfl

theorem unfailing_of_step (h : (r.step d c).Unfailing) : r.Unfailing := by
  cases c with
  | evaluate _ _ => exact unfailing_of_evaluate h
  | _ => exact h

theorem primed (d : Option (Dispatcher σ)) (w : σ) (cs : List Call) (h : (of d w cs).Unfailing) :
    (of d w cs).Primed d (history d { world := w } cs) := by
  induction cs using List.reverseRecOn with
  | nil => exact primed_fresh d w
  | append_singleton cs c ih =>
    have hr' := reachable d w (cs ++ [c])
    rw [of_concat] at h hr' ⊢
    rw [history_concat]
    exact (ih (unfailing_of_step h)).step (reachable d w cs) hr' h

/-- Where the first evaluation that fails does so for want of a declaration, it is a rule that
does. -/
theorem visit_of_stop (h : (of d w cs).Unfailing) (hc : f.cause = .noLongerDeclared name)
    (hm : some (.failed f) ∈ (of d w (cs ++ [c])).stops) :
    ∃ x ∈ history d { world := w } (cs ++ [c]), (x.outcome d).1 = .error f := by
  rw [of_concat] at hm
  cases c with
  | evaluate cancelled interrupts =>
    rcases List.mem_append.mp hm with hm | hm
    · exact (h f hm).elim
    · obtain ⟨x, hx, hfails⟩ :=
        Progress.visit_of_error interrupts hc (List.mem_singleton.mp hm).symm
      refine ⟨x, ?_, hfails⟩
      rw [history_concat]
      exact List.mem_append_right _ hx
  | _ => exact (h f hm).elim

/-- Definition before use: as long as no evaluation has failed, and in the first that does, every
reference finds a cell that a declaration or a renewal has filled. -/
theorem variables_written_before_read (d : Option (Dispatcher σ)) (w : σ) (cs : List Call)
    (h : (of d w cs).Unfailing) (c : Call) :
    (∀ before x after, history d { world := w } (cs ++ [c]) = before ++ x :: after →
      (∀ b, x.label.form = .variable false b → ∃ k e value, b = some k ∧
        x.machine.slot? k x.label.token.value = some e ∧ e.cell = some value ∧
        x.outcome d = (.ok (x.label.withResult value), x.machine) ∧
        ∃ y ∈ before, y.Leaves d k e) ∧
      (x.label.form = .initializer → ∃ v b k e, x.operand? = some v ∧
        v.form = .variable b (some k) ∧ x.machine.slot? k v.token.value = some e ∧
        x.Uses k e (x.outcome d))) ∧
    ∀ f name, some (.failed f) ∈ (of d w (cs ++ [c])).stops → f.cause ≠ .noLongerDeclared name := by
  have hdefined : Visit.AllDefined d [] (history d { world := w } (cs ++ [c])) := by
    rw [history_concat]
    exact (primed d w cs h).applied (reachable d w cs) c
  constructor
  · intro before x after hsplit
    rw [hsplit] at hdefined
    have hx := hdefined.at
    rw [List.nil_append] at hx
    constructor
    · intro b hl
      obtain ⟨k, e, rfl, he, y, hy, hleaves⟩ := hx.reference b hl
      obtain ⟨value, hcell, -⟩ := hleaves.yields
      refine ⟨k, e, value, rfl, he, hcell, ?_, y, hy, hleaves⟩
      rw [x.outcome_reference d hl he, hcell]
      rfl
    · intro hl
      obtain ⟨v, b, k, e, hv, hf, he⟩ := hx.initializer hl
      exact ⟨v, b, k, e, hv, hf, he, Visit.uses_of_slot d hv hf he⟩
  · intro f name hm hc
    obtain ⟨x, hx, hfails⟩ := visit_of_stop h hc hm
    obtain ⟨before, after, hsplit⟩ := List.append_of_mem hx
    rw [hsplit] at hdefined
    exact hdefined.at.cause_ne hfails hc

end Run

end Visits

/-- A declaration, an evaluation that is cut short, a marker that closes nothing, and a block in
which the name is renewed before a sum refers to it. -/
def renewedInBlock : List Call :=
  inserting [⟨"(", []⟩, ⟨"new", []⟩, ⟨"(", []⟩, ⟨"init", []⟩, ⟨"ID", "x"⟩, ⟨"INT", "1"⟩, ⟨")", []⟩,
      ⟨")", []⟩] ++
    [.evaluate true [], .insert ⟨"]", []⟩, .evaluate false []] ++
    inserting [⟨"\x7b", []⟩, ⟨"(", []⟩, ⟨"renew", []⟩, ⟨"(", []⟩, ⟨"init", []⟩, ⟨"ID", "x"⟩,
      ⟨"INT", "2"⟩, ⟨")", []⟩, ⟨")", []⟩, ⟨"\x7d", []⟩, ⟨"(", []⟩, ⟨"PLUS", []⟩, ⟨"ID", "x"⟩,
      ⟨"INT", "1"⟩, ⟨")", []⟩]

theorem variables_written_before_read_renewedInBlock :
    (Run.of none () renewedInBlock).stops.map Option.isSome = [true, false] ∧
      (Run.of none () renewedInBlock).Unfailing ∧
      ∃ before x after e y,
        Run.history none { world := () } (renewedInBlock ++ [.evaluate false []]) =
          before ++ x :: after ∧ x.label.form = .variable false (some 0) ∧
        x.machine.slot? 0 "x" = some e ∧ e.cell = some (.int 2) ∧ y ∈ before ∧
        y.Leaves (none : Option (Dispatcher Unit)) 0 e := by
  have hstops : ∀ s ∈ (Run.of (none : Option (Dispatcher Unit)) () renewedInBlock).stops,
      s.all (· matches .cancelled) = true := by
    decide +kernel
  have hun : (Run.of (none : Option (Dispatcher Unit)) () renewedInBlock).Unfailing := by
    intro f hf
    cases hstops _ hf
  have hx : ((Run.history (none : Option (Dispatcher Unit)) { world := () }
      (renewedInBlock ++ [.evaluate false []]))[8]?.map fun x =>
        (x.label.form, x.label.token.value, (x.machine.slot? 0 "x").bind (·.cell))) =
      some (.variable false (some 0), ("x" : Bytes), some (.int 2)) := by
    decide +kernel
  obtain ⟨x, hx, he⟩ := Option.map_eq_some_iff.mp hx
  obtain ⟨hform, hname, hcell⟩ : x.label.form = .variable false (some 0) ∧
      x.label.token.value = "x" ∧ (x.machine.slot? 0 "x").bind (·.cell) = some (.int 2) := by
    simpa using he
  obtain ⟨before, after, hsplit⟩ := List.append_of_mem (List.mem_of_getElem? hx)
  obtain ⟨k, e, value, hk, hslot, -, -, y, hy, hleaves⟩ :=
    ((Run.variables_written_before_read none () renewedInBlock hun (.evaluate false [])).1 before x
      after hsplit).1 _ hform
  cases hk
  rw [hname] at hslot
  rw [hslot] at hcell
  exact ⟨by decide +kernel, hun, before, x, after, e, y, hsplit, hform, hslot, hcell, hy, hleaves⟩

end TokenShell
