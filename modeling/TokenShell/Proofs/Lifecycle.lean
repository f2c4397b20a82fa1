import TokenShell.Proofs.Links
import TokenShell.Proofs.Schedule

/-! The phases of a node: they come in one order, the children go first, and none is ever undone. -/
namespace TokenShell

namespace Flags

variable {f g h : Flags}

/-- Whether each phase has been gone through, in the order of the phases. -/
def phases (f : Flags) : List Bool := [f.setup, f.complete, f.reordered, f.analyzed, f.evaluated]

/-- A phase has been gone through only after all earlier ones. -/
def InTurn (f : Flags) : Prop :=
  f.phases.Pairwise fun earlier later => later = true → earlier = true

/-- Every phase gone through in the one has been gone through in the other. -/
instance : LE Flags := ⟨fun f g => List.Forall₂ (fun a b => a = true → b = true) f.phases g.phases⟩

instance (f : Flags) : Decidable f.InTurn := by
  unfold InTurn
  infer_instance

theorem le_iff : f ≤ g ↔
    (f.setup = true → g.setup = true) ∧ (f.complete = true → g.complete = true) ∧
    (f.reordered = true → g.reordered = true) ∧ (f.analyzed = true → g.analyzed = true) ∧
    (f.evaluated = true → g.evaluated = true) := by
  show List.Forall₂ _ f.phases g.phases ↔ _
  simp [phases]

theorem le_refl (f : Flags) : f ≤ f := by
  simp [le_iff]

theorem le_trans (hf : f ≤ g) (hg : g ≤ h) : f ≤ h := by
  obtain ⟨h₁, h₂, h₃, h₄, h₅⟩ := le_iff.mp hf
  obtain ⟨g₁, g₂, g₃, g₄, g₅⟩ := le_iff.mp hg
  exact le_iff.mpr ⟨g₁ ∘ h₁, g₂ ∘ h₂, g₃ ∘ h₃, g₄ ∘ h₄, g₅ ∘ h₅⟩

end Flags

theorem Evaluation.inside_ok {σ α : Type} {scope scope' : Scope} {x : Evaluation σ α} {a : α}
    {m₁ m₂ : Machine σ}
    (h : Evaluation.inside scope x m₁ = (.ok (a, scope'), m₂)) :
    ∃ m, x { m₁ with scopes := scope :: m₁.scopes } = (.ok a, m) ∧ m₂.outputs = m.outputs := by
  unfold Evaluation.inside at h
  split at h
  · next b m hx =>
    refine ⟨m, ?_⟩
    split at h
    · cases h
      exact ⟨hx, rfl⟩
    · cases h
      exact ⟨hx, rfl⟩
  · cases h

namespace Node

variable {n m k : Node} {l : Label} {ks js : List Node} {p : List Node × Node} {above : List Node}

theorem Staged.flags (h : n.Staged) :
    n.flags = { setup := true } ∨ ∃ b, n.flags = ⟨true, true, true, true, b⟩ := by
  rcases h with hs | hu
  · exact Or.inr hs.flags
  · exact Or.inl hu.flags

/-- What stands anywhere below a staged node is staged. -/
theorem Staged.places (h : n.Staged) (hp : p ∈ n.places above) : p.2.Staged := by
  induction n using induct generalizing above with
  | h l ks ih =>
    rcases mem_places_mk.mp hp with rfl | ⟨k, hk, hp⟩
    · exact h
    · refine ih k hk ?_ hp
      rcases h with hs | hu
      · exact Or.inl (hs.kids k hk)
      · exact ((upper_mk.mp hu).2 k hk).symm.imp_left And.right

theorem Settled.labels (h : n.Settled) (hl : l ∈ n.labels) :
    ∃ b, l.flags = ⟨true, true, true, true, b⟩ := by
  induction n using induct with
  | h m ks ih =>
    rw [labels_mk] at hl
    rcases List.mem_cons.mp hl with rfl | hl
    · exact h.flags
    · obtain ⟨k, hk, hl⟩ := List.mem_flatMap.mp hl
      exact ih k hk (h.kids k hk) hl

theorem Fresh.labels (h : n.Fresh) (hl : l ∈ n.labels) : l.flags.evaluated = false := by
  induction n using induct with
  | h m ks ih =>
    obtain ⟨hm, hk⟩ := fresh_mk.mp h
    rw [labels_mk] at hl
    rcases List.mem_cons.mp hl with rfl | hl
    · exact hm
    · obtain ⟨k, hmem, hl⟩ := List.mem_flatMap.mp hl
      exact ih k hmem (hk k hmem) hl

/-- The open nodes put under one another, from the innermost on. -/
theorem fresh_foldl {path : List Node} (h : ∀ k ∈ n :: path, k.Fresh) :
    (path.foldl (fun n p => p.push n) n).Fresh := by
  induction path generalizing n with
  | nil => exact h n (by simp)
  | cons p path ih =>
    rw [List.foldl_cons]
    apply ih
    intro k hk
    rcases List.mem_cons.mp hk with rfl | hk
    · exact (h p (by simp)).push (h n (by simp))
    · exact h k (by simp [hk])

/-! Trees of which everything is evaluated. -/

def Spent (n : Node) : Prop := ∀ l ∈ n.labels, l.flags.evaluated = true

theorem spent_mk : (mk l ks).Spent ↔ l.flags.evaluated = true ∧ ∀ k ∈ ks, k.Spent := by
  simp only [Spent, labels_mk, List.forall_mem_cons, List.mem_flatMap]
  refine and_congr_right fun _ => ⟨?_, ?_⟩
  · exact fun h k hk m hm => h m ⟨k, hk, hm⟩
  · rintro h m ⟨k, hk, hm⟩
    exact h k hk m hm

variable {σ : Type} {d : Option (Dispatcher σ)} {m₁ m₂ : Machine σ}

/-- What evaluation makes of every child, it makes of the children that come out of it. -/
theorem forall_evaluateAll {P : Node → Prop}
    (hk : ∀ k ∈ ks, ∀ m₁ m₂ j, k.evaluate d m₁ = (.ok j, m₂) → P j)
    (h : evaluateAll d ks m₁ = (.ok js, m₂)) : ∀ j ∈ js, P j := by
  induction ks generalizing m₁ js with
  | nil =>
    cases h
    simp
  | cons k ks ih =>
    obtain ⟨j, js, m, hj, hjs, rfl⟩ := evaluateAll_cons_ok.mp h
    rw [List.forall_mem_cons]
    exact ⟨hk k (by simp) _ _ j hj, ih (fun i hi => hk i (by simp [hi])) hjs⟩

/-- An evaluation that succeeds has evaluated the children and then applied the rule of the node. -/
theorem evaluate_ok (hl : l.flags.evaluated = false)
    (h : (mk l ks).evaluate d m₁ = (.ok m, m₂)) :
    ∃ js inner before after rule l', evaluateAll d ks inner = (.ok js, before) ∧
      after.outputs = before.outputs ∧ Label.evaluate d rule js after = (.ok l', m₂) ∧
      m = mk l'.markEvaluated js := by
  rcases evaluate_cases d l ks with
    ⟨he, -⟩ | ⟨-, -, hr⟩ | ⟨-, kind, scope, -, hr⟩ | ⟨-, -, hr⟩
  · rw [hl] at he
    cases he
  · rw [hr] at h
    cases h
  · rw [hr] at h
    obtain ⟨⟨js, scope'⟩, after, hj, h⟩ := run_bind_ok.mp h
    obtain ⟨l', m₃, hrule, h⟩ := run_bind_ok.mp h
    cases h
    obtain ⟨before, hj, ho⟩ := Evaluation.inside_ok hj
    exact ⟨js, _, before, after, _, l', hj, ho, hrule, rfl⟩
  · rw [hr] at h
    obtain ⟨js, after, hj, h⟩ := run_bind_ok.mp h
    obtain ⟨l', m₃, hrule, h⟩ := run_bind_ok.mp h
    cases h
    exact ⟨js, _, after, after, l, l', hj, rfl, hrule, rfl⟩

/-- An evaluation that succeeds leaves no node out. -/
theorem Fresh.spent (hn : n.Fresh) (h : n.evaluate d m₁ = (.ok m, m₂)) : m.Spent := by
  induction n using induct generalizing m₁ m₂ m with
  | h l ks ih =>
    obtain ⟨hl, hks⟩ := fresh_mk.mp hn
    have hkids : ∀ k ∈ ks, ∀ m₁ m₂ j, k.evaluate d m₁ = (.ok j, m₂) → j.Spent :=
      fun k hk _ _ _ hj => ih k hk (hks k hk) hj
    obtain ⟨js, _, _, _, _, l', hj, -, -, rfl⟩ := evaluate_ok hl h
    exact spent_mk.mpr ⟨rfl, forall_evaluateAll hkids hj⟩

end Node

theorem Progress.Pass.spent {σ : Type} {d : Option (Dispatcher σ)} {m m' : Machine σ}
    {ns ns' : List Node} {vs : List Value} (h : Pass d m ns ns' vs m')
    (hf : ∀ n ∈ ns, n.flags.evaluated = false → n.Fresh)
    (hs : ∀ n ∈ ns, n.flags.evaluated = true → n.Spent) : ∀ n ∈ ns', n.Spent := by
  induction h with
  | nil => simp
  | skip he _ ih =>
    obtain ⟨hn, hns⟩ := List.forall_mem_cons.mp hs
    exact List.forall_mem_cons.mpr ⟨hn he, ih (List.forall_mem_cons.mp hf).2 hns⟩
  | step he _ _ hv _ ih =>
    obtain ⟨hn, hns⟩ := List.forall_mem_cons.mp hf
    exact List.forall_mem_cons.mpr ⟨(hn he).spent hv, ih hns (List.forall_mem_cons.mp hs).2⟩

namespace Tree

variable {t u : Tree}

theorem Reachable.sound_fresh (h : t.Reachable) : t.Sound ∧ t.Fresh := by
  obtain ⟨σ, d, w, cs, rfl⟩ := h
  have ho := Run.orderly d w cs
  exact ⟨ho.sound, ho.fresh⟩

/-- A fragment that is evaluated is so as a whole. -/
theorem Reachable.spent (h : t.Reachable) :
    ∀ n ∈ t.fragments, n.flags.evaluated = true → n.Spent := by
  refine h.invariant (P := fun t => ∀ n ∈ t.fragments, n.flags.evaluated = true → n.Spent)
    (by simp) ?_ ?_ ?_
  · intro t tok ht hs n hn he
    obtain ⟨hsound, hfresh⟩ := ht.sound_fresh
    exact hs n ((carries_insert hfresh hsound tok).evaluated n hn he) he
  · intro t ht hs n hn he
    obtain ⟨hsound, hfresh⟩ := ht.sound_fresh
    exact hs n ((carries_reset hfresh hsound.opened).evaluated n hn he) he
  · intro σ t d w cancelled interrupts ht hs n hn he
    obtain ⟨-, hfresh⟩ := ht.sound_fresh
    obtain ⟨ks, ks', rest, rest', vs, m', m'', stop, hns, hpass, hend, ho⟩ :=
      Progress.of_cases d interrupts ⟨[t.globals], w, cancelled, []⟩ t.fragments
    simp only [Tree.evaluate, ho] at hn
    rcases List.mem_append.mp hn with hn | hn
    · refine hpass.spent (fun k hk => ?_) (fun k hk => ?_) n hn
      · exact hfresh.fragments k (by simp [hns, hk])
      · exact hs k (by simp [hns, hk])
    · refine hs n ?_ he
      rw [hns]
      exact List.mem_append_right _ (hend.sublist.mem hn)

/-- A fragment is evaluated as a whole or not at all. -/
theorem Reachable.fresh_or_spent (h : t.Reachable) : ∀ r ∈ t.roots, r.Fresh ∨ r.Spent := by
  obtain ⟨-, hfresh⟩ := h.sound_fresh
  intro r hr
  rcases mem_roots.mp hr with hr | ⟨n, path, hp, rfl⟩
  · by_cases he : r.flags.evaluated = true
    · exact Or.inr (h.spent r hr he)
    · exact Or.inl (hfresh.fragments r hr (by simpa using he))
  · have hpath : ∀ k ∈ n :: path, k.Fresh := hp ▸ hfresh.path
    exact Or.inl (Node.fresh_foldl hpath)

/-- The nodes of a tree go through the phases in order, a phase is finished below a node before it
is finished for the node, and setup goes from the top down. -/
structure Phased (t : Tree) : Prop where
  inTurn : ∀ p ∈ t.places, p.2.flags.InTurn
  children : ∀ p ∈ t.places, ∀ k ∈ p.2.kids,
    (p.2.flags.complete = true → k.flags.complete = true) ∧
    (p.2.flags.reordered = true → k.flags.reordered = true) ∧
    (p.2.flags.analyzed = true → k.flags.analyzed = true) ∧
    (p.2.flags.evaluated = true → k.flags.evaluated = true)
  parent : ∀ p ∈ t.places, p.2.flags.setup = true → ∀ q ∈ p.1.head?, q.flags.setup = true

theorem Reachable.phased (h : t.Reachable) : t.Phased := by
  have hstaged : ∀ p ∈ t.places, p.2.Staged := by
    intro p hp
    obtain ⟨r, hr, hp⟩ := mem_places.mp hp
    exact (h.staged.roots r hr).places hp
  refine ⟨?_, ?_, ?_⟩
  · intro p hp
    rcases (hstaged p hp).flags with hf | ⟨b, hf⟩
    · rw [hf]
      decide
    · rw [hf]
      cases b <;> decide
  · intro p hp k hk
    have hearly : p.2.flags.complete = true ∨ p.2.flags.reordered = true ∨
        p.2.flags.analyzed = true → ∃ b, k.flags = ⟨true, true, true, true, b⟩ := by
      intro hphase
      rcases hstaged p hp with hs | hu
      · exact (hs.kids k hk).flags
      · simp [hu.flags] at hphase
    have hlast : p.2.flags.evaluated = true → k.flags.evaluated = true := by
      intro he
      obtain ⟨r, hr, hp⟩ := mem_places.mp hp
      have hlabel : ∀ q ∈ r.places [], q.2.label ∈ r.labels := by
        intro q hq
        rw [← Node.places_label []]
        exact List.mem_map.mpr ⟨q, hq, rfl⟩
      rcases h.fresh_or_spent r hr with hf | hs
      · have hno : p.2.flags.evaluated = false := hf.labels (hlabel p hp)
        rw [hno] at he
        cases he
      · exact hs _ (hlabel (p.2 :: p.1, k) (Node.child_places hp hk))
    refine ⟨fun hc => ?_, fun hc => ?_, fun hc => ?_, hlast⟩
    · obtain ⟨b, hf⟩ := hearly (Or.inl hc)
      rw [hf]
    · obtain ⟨b, hf⟩ := hearly (Or.inr (Or.inl hc))
      rw [hf]
    · obtain ⟨b, hf⟩ := hearly (Or.inr (Or.inr hc))
      rw [hf]
  · intro p hp _ q hq
    obtain ⟨r, hr, hp⟩ := mem_places.mp hp
    have hqr : ∃ a, (a, q) ∈ r.places [] := by
      rcases Node.parent_of_places hp with rfl | ⟨s, hs, he, -⟩
      · simp at hq
      · rw [he] at hq
        obtain rfl : s.2 = q := by simpa using hq
        exact ⟨s.1, hs⟩
    obtain ⟨a, hqr⟩ := hqr
    rcases ((h.staged.roots r hr).places hqr).flags with hf | ⟨b, hf⟩
    · simp only at hf
      rw [hf]
    · simp only at hf
      rw [hf]

end Tree

/-! How nodes go on from one tree to the next. -/

/-- Every label of `ys` goes back to one of `xs`, with its number and all phases it has been
through. -/
def Label.Advances (xs ys : List Label) : Prop :=
  ∀ y ∈ ys, ∃ x ∈ xs, x.serial = y.serial ∧ x.flags ≤ y.flags

namespace Label.Advances

variable {xs ys zs us vs : List Label}

theorem of_subset (h : ∀ y ∈ ys, y ∈ xs) : Advances xs ys :=
  fun y hy => ⟨y, h y hy, rfl, Flags.le_refl _⟩

theorem refl (xs : List Label) : Advances xs xs := of_subset fun _ hy => hy

theorem trans (h : Advances xs ys) (h' : Advances ys zs) : Advances xs zs := by
  intro z hz
  obtain ⟨y, hy, hs, hf⟩ := h' z hz
  obtain ⟨x, hx, hs', hf'⟩ := h y hy
  exact ⟨x, hx, hs'.trans hs, Flags.le_trans hf' hf⟩

theorem append (h : Advances xs ys) (h' : Advances us vs) : Advances (xs ++ us) (ys ++ vs) := by
  intro y hy
  rcases List.mem_append.mp hy with hy | hy
  · obtain ⟨x, hx, hy⟩ := h y hy
    exact ⟨x, List.mem_append_left _ hx, hy⟩
  · obtain ⟨x, hx, hy⟩ := h' y hy
    exact ⟨x, List.mem_append_right _ hx, hy⟩

end Label.Advances

namespace Node

variable {n m : Node} {l : Label} {ks : List Node}

def numberStep (l : Label) (parts : List (List Nat)) : List Nat :=
  match l.isOperator, parts with
  | true, [x, y] => x ++ [l.serial] ++ y
  | _, parts => l.serial :: parts.flatten

/-- The numbers of the nodes of a tree, those of binary operators between those of their operands.
-/
def numbers (n : Node) : List Nat := n.fold numberStep

theorem numbers_sequential : Sequential (fun l => [l.serial]) numberStep where
  draft l := by
    have ho : l.draft.isOperator = l.isOperator := by
      simp only [Label.isOperator, Label.draft]
      cases l.form <;> rfl
    funext parts
    rw [numberStep.eq_def, numberStep.eq_def, ho]
    rfl
  unary l x _ _ := by simp [numberStep]
  binary l x y ho _ := by simp [numberStep, ho]

theorem numbers_cascade {within : Option Nat} {s t : Scopes}
    (h : n.cascade within s = (.ok m, t)) : m.numbers = n.numbers := by
  refine fold_cascade numbers_sequential (fun l => ?_) h
  have ho : l.plan.isOperator = l.isOperator := by
    simp only [Label.isOperator, Label.plan]
    cases l.form <;> rfl
  funext parts
  rw [numberStep.eq_def, numberStep.eq_def, ho]
  rfl

theorem numbers_perm (l : Label) (ks : List Node) :
    (mk l ks).numbers.Perm (l.serial :: ks.flatMap numbers) := by
  rw [numbers, fold_mk, List.flatMap_def, numberStep.eq_def]
  split
  · next x y hp =>
    show List.Perm _ (l.serial :: (ks.map (fold numberStep)).flatten)
    rw [hp]
    simp
  · exact .refl _

theorem mem_numbers {s : Nat} : s ∈ n.numbers ↔ ∃ l ∈ n.labels, l.serial = s := by
  induction n using induct with
  | h l ks ih =>
    rw [(numbers_perm l ks).mem_iff, labels_mk]
    simp only [List.mem_cons, List.mem_flatMap, exists_eq_or_imp]
    refine or_congr eq_comm ⟨?_, ?_⟩
    · rintro ⟨k, hk, hs⟩
      obtain ⟨x, hx, hs⟩ := (ih k hk).mp hs
      exact ⟨x, ⟨k, hk, hx⟩, hs⟩
    · rintro ⟨x, ⟨k, hk, hx⟩, hs⟩
      exact ⟨k, hk, (ih k hk).mpr ⟨x, hx, hs⟩⟩

/-- The phases up to analysis take every node on. -/
theorem advances_cascade {within : Option Nat} {s t : Scopes} (hf : n.Fresh)
    (hm : m.Settled) (h : n.cascade within s = (.ok m, t)) : Label.Advances n.labels m.labels := by
  intro y hy
  have hs : y.serial ∈ n.numbers := by
    rw [← numbers_cascade h]
    exact mem_numbers.mpr ⟨y, hy, rfl⟩
  obtain ⟨x, hx, hs⟩ := mem_numbers.mp hs
  obtain ⟨b, hb⟩ := hm.labels hy
  refine ⟨x, hx, hs, Flags.le_iff.mpr ?_⟩
  rw [hb, hf.labels hx]
  simp

theorem labels_of_outline (n : Node) : n.outline.labels = n.labels.map Label.outline := by
  induction n using induct with
  | h l ks ih =>
    rw [outline_mk, labels_mk, labels_mk, List.map_cons, List.flatMap_map, List.map_flatMap]
    exact congrArg _ (List.flatMap_congr ih)

/-- Evaluation takes every node of a tree on of which nothing was evaluated. -/
theorem advances_outline (hn : n.Fresh) (h : m.outline = n.outline) :
    Label.Advances n.labels m.labels := by
  have hlabels : m.labels.map Label.outline = n.labels.map Label.outline := by
    rw [← labels_of_outline, h, labels_of_outline]
  intro y hy
  have hmem : y.outline ∈ n.labels.map Label.outline := hlabels ▸ List.mem_map_of_mem hy
  obtain ⟨x, hx, he⟩ := List.mem_map.mp hmem
  have hserial : x.outline.serial = y.outline.serial := congrArg Label.serial he
  refine ⟨x, hx, hserial, Flags.le_iff.mpr ?_⟩
  have hflags : { x.flags with evaluated := false } = { y.flags with evaluated := false } :=
    congrArg Label.flags he
  have hx := hn.labels hx
  simp only [Flags.mk.injEq] at hflags
  simp [hflags, hx]

theorem advances_setLabel {x : Label} (hs : x.serial = n.label.serial)
    (hf : x.flags = n.label.flags) : Label.Advances n.labels (n.setLabel x).labels := by
  obtain ⟨l, ks⟩ := n
  rw [setLabel_mk, labels_mk, labels_mk]
  have hx : Label.Advances [l] [x] := by
    intro y hy
    obtain rfl := List.mem_singleton.mp hy
    refine ⟨l, by simp, hs.symm, ?_⟩
    rw [hf]
    exact Flags.le_refl _
  exact hx.append (.refl _)

theorem advances_setScope (n : Node) (s : Scope) :
    Label.Advances n.labels (n.setScope s).labels := by
  unfold setScope
  split
  · exact advances_setLabel rfl rfl
  · exact .refl _

end Node

theorem Flushed.advances (within : Option Nat) {ns : List Node} {ss : Scopes} {depth : Nat}
    (h : ∀ n ∈ ns, n.Staged) (hf : ∀ n ∈ ns, n.flags.analyzed = false → n.Fresh)
    (hs : ss.length = depth + 1) :
    Label.Advances (ns.flatMap Node.labels) ((of within ss ns).kids.flatMap Node.labels) := by
  induction ns generalizing ss with
  | nil => exact .refl _
  | cons n ns ih =>
    obtain ⟨hn, hns⟩ := List.forall_mem_cons.mp h
    obtain ⟨hnf, hnsf⟩ := List.forall_mem_cons.mp hf
    by_cases ha : n.flags.analyzed = true
    · rw [of, if_pos ha]
      simp only [List.flatMap_cons]
      exact (Label.Advances.refl _).append (ih hns hnsf hs)
    · obtain ⟨hlen, hm⟩ := (hn.upper_of_not_analyzed ha).cascade within depth ss hs
      rw [of, if_neg ha]
      rcases hr : n.cascade within ss with ⟨f | q, us⟩
      · exact .refl _
      · rw [hr] at hlen hm
        simp only [List.flatMap_cons]
        have hq := Node.advances_cascade (hnf (by simpa using ha)) hm hr
        exact hq.append (ih hns hnsf hlen)

theorem Progress.Pass.advances {σ : Type} {d : Option (Dispatcher σ)} {m m' : Machine σ}
    {ns ns' : List Node} {vs : List Value} (h : Pass d m ns ns' vs m')
    (hf : ∀ n ∈ ns, n.flags.evaluated = false → n.Fresh) :
    Label.Advances (ns.flatMap Node.labels) (ns'.flatMap Node.labels) := by
  induction h with
  | nil => exact .refl _
  | skip _ _ ih =>
    simp only [List.flatMap_cons]
    exact (Label.Advances.refl _).append (ih (List.forall_mem_cons.mp hf).2)
  | step he _ _ hv _ ih =>
    obtain ⟨hn, hns⟩ := List.forall_mem_cons.mp hf
    simp only [List.flatMap_cons]
    exact (Node.advances_outline (hn he) (Node.outline_evaluate hv)).append (ih hns)

namespace Tree

variable {t u v : Tree} {tok : Token} {f : Option Failure} {rs : List Node} {g : Scope}

/-- The labels of all nodes. -/
def labels (t : Tree) : List Label := t.roots.flatMap Node.labels

theorem labels_eq_gather (t : Tree) : t.labels = t.gather fun l => [l] := by
  rw [gather, ← gather_openFragment, ← List.flatMap_append, ← roots, labels]
  refine List.flatMap_congr fun n _ => ?_
  rw [Node.gather_eq_labels, List.flatMap_singleton']

theorem labels_eq (t : Tree) :
    t.labels = t.fragments.flatMap Node.labels ++ t.path.reverse.flatMap Node.labels := by
  have hg : Node.gather (fun l => [l]) = Node.labels := by
    funext n
    rw [Node.gather_eq_labels, List.flatMap_singleton']
  rw [labels_eq_gather, gather, hg]

theorem labels_append (t : Tree) (n : Node) : (t.append n).labels = t.labels ++ n.labels := by
  rw [labels_eq_gather, gather_append, ← labels_eq_gather, Node.gather_eq_labels,
    List.flatMap_singleton']

theorem advances_leave (t : Tree) : Label.Advances t.labels t.leave.labels := by
  unfold leave
  split
  · exact .refl _
  · next n path hp =>
    have ht : t.labels = ({ t with path } : Tree).labels ++ n.labels := by
      simp [labels_eq, hp]
    rw [labels_append, ht]
    exact (Label.Advances.refl _).append (Node.advances_setLabel rfl rfl)

theorem advances_flush (hs : t.Staged) (hf : t.Fresh) :
    Label.Advances t.labels t.flush.tree.labels := by
  have hlen : t.scopes.length = (t.path.filterMap Node.scope?).length + 1 := by simp [scopes]
  rw [labels_eq, labels_eq]
  unfold flush
  split
  · next hp =>
    refine Label.Advances.append ?_ (.refl _)
    refine Flushed.advances _ hs.fragments (fun n hn ha => hf.fragments n hn ?_) hlen
    rcases (hs.fragments n hn).flags with he | ⟨b, he⟩
    · rw [he]
    · rw [he] at ha
      cases ha
  · next n path hp =>
    obtain ⟨l, ks⟩ := n
    have hkids := (hs.path (.mk l ks) (by simp [hp])).staged_kids
    have hfresh := (Node.fresh_mk.mp (hf.path (.mk l ks) (by simp [hp]))).2
    have hadv := Flushed.advances t.innerBlock hkids (fun k hk _ => hfresh k hk) hlen
    rw [hp, List.reverse_cons, List.reverse_cons, List.flatMap_append, List.flatMap_append,
      List.flatMap_singleton, List.flatMap_singleton]
    refine (Label.Advances.refl _).append ((Label.Advances.refl _).append ?_)
    refine Label.Advances.trans ?_ (Node.advances_setScope _ _)
    rw [Node.labels_mk, Node.labels_mk]
    exact (Label.Advances.refl [l]).append hadv

/-- Closing a node evaluates nothing. -/
theorem Closing.fresh (h : t.Closing tok u) (hf : t.Fresh) (hg : t.Grown rs g [])
    (hr : ∀ r ∈ rs, r.isReady = true) : u.Fresh ∧ u.leave.Fresh := by
  obtain ⟨n, path, _, -, hp, -, -, hcase⟩ := h
  have hu : u.Fresh := by
    rcases hcase with ⟨-, rfl⟩ | ⟨-, rfl, -⟩
    · exact hf
    · exact (carries_flush hf hg hr).fresh
  exact ⟨hu, (carries_leave hu hp).fresh⟩

/-- Placing a token takes every node on and adds at most one. -/
theorem Placed.advances (h : t.Placed tok u f) (hs : t.Staged) (hf : t.Fresh)
    (hg : t.Grown rs g []) (hr : ∀ r ∈ rs, r.isReady = true) :
    ∃ new, Label.Advances (t.labels ++ new) u.labels ∧ ∀ l ∈ new, l.serial = t.clock := by
  have hold : ∀ {v : Tree}, Label.Advances t.labels v.labels →
      ∃ new, Label.Advances (t.labels ++ new) v.labels ∧ ∀ l ∈ new, l.serial = t.clock :=
    fun hv => ⟨[], by rwa [List.append_nil], by simp⟩
  have hclosing : ∀ v, t.Closing tok v → Label.Advances t.labels v.leave.labels := by
    intro v hv
    refine Label.Advances.trans ?_ (advances_leave v)
    rcases hs.closing_cases hv with ⟨rfl, -⟩ | ⟨-, rfl, -⟩
    · exact .refl _
    · exact advances_flush hs hf
  have hsprout : ∀ k m, ∀ l ∈ (Node.sprout tok t.clock k m).labels, l.serial = t.clock := by
    intro k m l hl
    obtain rfl : l = _ := by simpa [Node.sprout, Node.labels_mk] using hl
    rfl
  cases h with
  | refused f _ => exact hold (.refl _)
  | awaiting _ => exact hold (.refl _)
  | leaf k _ _ =>
    refine ⟨_, ?_, hsprout k none⟩
    rw [labels_append]
    exact .refl _
  | entered k m _ _ =>
    refine ⟨_, ?_, hsprout k (some m)⟩
    simp only [labels_eq, List.reverse_cons, List.flatMap_append, List.flatMap_singleton,
      List.append_assoc]
    exact .refl _
  | flushed _ _ => exact hold (advances_flush hs hf)
  | blocked f n path _ _ _ => exact hold (advances_flush hs hf)
  | left v hv => exact hold (hclosing v hv)
  | delivered v hv _ =>
    have hflush := advances_flush (hs.closing hv).leave (hv.fresh hf hg hr).2
    exact hold ((hclosing v hv).trans hflush)

/-- Every node of the later tree goes back to one of the earlier tree, or has been made since. -/
structure Advances (t u : Tree) : Prop where
  clock : t.clock ≤ u.clock
  labels : ∀ y ∈ u.labels, (∃ x ∈ t.labels, x.serial = y.serial ∧ x.flags ≤ y.flags) ∨
    t.clock < y.serial

theorem Advances.of_labels (hc : t.clock ≤ u.clock) (h : Label.Advances t.labels u.labels) :
    t.Advances u :=
  ⟨hc, fun y hy => Or.inl (h y hy)⟩

theorem Advances.trans (h : t.Advances u) (h' : u.Advances v) : t.Advances v := by
  refine ⟨h.clock.trans h'.clock, ?_⟩
  intro z hz
  rcases h'.labels z hz with ⟨y, hy, hs, hf⟩ | hlt
  · rcases h.labels y hy with ⟨x, hx, hs', hf'⟩ | hlt
    · exact Or.inl ⟨x, hx, hs'.trans hs, Flags.le_trans hf' hf⟩
    · exact Or.inr (hs ▸ hlt)
  · exact Or.inr (Nat.lt_of_le_of_lt h.clock hlt)

theorem advances_reset (t : Tree) : Label.Advances t.labels t.reset.tree.labels := by
  refine .of_subset fun l hl => ?_
  have hr : t.reset.tree.roots = t.roots.filter (·.isReady) := by
    simp [Tree.reset, roots, openFragment]
  rw [labels, hr] at hl
  exact (List.filter_sublist.flatMap _).mem hl

theorem Reachable.advances_insert (h : t.Reachable) (tok : Token) :
    t.Advances (t.insert tok).tree := by
  obtain ⟨hsound, hfresh⟩ := h.sound_fresh
  obtain ⟨hr, -, hg⟩ := hsound.grown
  have hclock := clock_insert t tok
  obtain ⟨new, hnew, hserial⟩ := (placed_place { t with clock := t.clock + 1 } tok).advances
    ⟨h.staged.fragments, h.staged.path⟩ ⟨hfresh.fragments, hfresh.path⟩ hg.tick hr
  have hplaced : Label.Advances (t.labels ++ new) (t.insert tok).tree.labels := by
    rcases insert_tree t tok with ⟨-, ht, -⟩ | ⟨f, -, ht, -⟩
    · rw [ht]
      exact hnew
    · rw [ht]
      exact hnew.trans (advances_reset _)
  refine ⟨by omega, ?_⟩
  intro y hy
  obtain ⟨x, hx, hs, hf⟩ := hplaced y hy
  rcases List.mem_append.mp hx with hx | hx
  · exact Or.inl ⟨x, hx, hs, hf⟩
  · have hxs := hserial x hx
    exact Or.inr (by dsimp only at hxs; omega)

theorem Reachable.advances_evaluate {σ : Type} (h : t.Reachable) (d : Option (Dispatcher σ)) (w : σ)
    (cancelled : Bool) (interrupts : List Bool) :
    t.Advances (t.evaluate d w cancelled interrupts).tree := by
  obtain ⟨-, hfresh⟩ := h.sound_fresh
  obtain ⟨ks, ks', rest, rest', vs, m', m'', stop, hns, hpass, hend, ho⟩ :=
    Progress.of_cases d interrupts ⟨[t.globals], w, cancelled, []⟩ t.fragments
  refine .of_labels (Nat.le_refl _) ?_
  simp only [Tree.evaluate, ho]
  rw [labels_eq, labels_eq, hns, List.flatMap_append, List.flatMap_append]
  refine Label.Advances.append (Label.Advances.append ?_ ?_) (.refl _)
  · exact hpass.advances fun k hk => hfresh.fragments k (by simp [hns, hk])
  · exact .of_subset fun l hl => (hend.sublist.flatMap _).mem hl

theorem mem_labels {l : Label} : l ∈ t.labels ↔ ∃ p ∈ t.places, p.2.label = l := by
  have hplaces : t.places.map (·.2.label) = t.labels := by
    rw [places, Node.placesAll_eq, labels, List.map_flatMap]
    exact List.flatMap_congr fun n _ => Node.places_label [] n
  rw [← hplaces, List.mem_map]

/-- A node is found again by its number. -/
theorem Advances.flags (h : t.Advances u) (hu : t.Unshared) {p q : List Node × Node}
    (hp : p ∈ t.places) (hq : q ∈ u.places) (hs : q.2.label.serial = p.2.label.serial) :
    p.2.flags ≤ q.2.flags := by
  have hpl : p.2.label ∈ t.labels := mem_labels.mpr ⟨p, hp, rfl⟩
  rcases h.labels q.2.label (mem_labels.mpr ⟨q, hq, rfl⟩) with ⟨x, hx, hxs, hf⟩ | hlt
  · have hd : (t.labels.map Label.serial).Nodup := hu.distinct
    obtain rfl : x = p.2.label := List.inj_on_of_nodup_map hd hx hpl (hxs.trans hs)
    exact hf
  · have hle := hu.bounded p.2.label.serial (List.mem_map_of_mem hpl)
    omega

end Tree

namespace Run

variable {σ : Type} {d : Option (Dispatcher σ)} {w : σ}

theorem advances (d : Option (Dispatcher σ)) (w : σ) (pre post : List Call) :
    (of d w pre).tree.Advances (of d w (pre ++ post)).tree := by
  induction post using List.reverseRecOn with
  | nil =>
    rw [List.append_nil]
    exact .of_labels (Nat.le_refl _) (.refl _)
  | append_singleton post c ih =>
    rw [← List.append_assoc, of_concat]
    refine ih.trans ?_
    have hr := reachable d w (pre ++ post)
    cases c with
    | insert tok => exact hr.advances_insert tok
    | reset => exact .of_labels (Nat.le_refl _) (Tree.advances_reset _)
    | evaluate cancelled interrupts => exact hr.advances_evaluate d _ cancelled interrupts

/-- Nodes go through the phases in order, children before their parents but for setup, and a node
that is found again later has lost none of them. -/
theorem phases_never_undone (d : Option (Dispatcher σ)) (w : σ) (pre post : List Call) :
    (of d w pre).tree.Phased ∧
    ∀ p ∈ (of d w pre).tree.places, ∀ q ∈ (of d w (pre ++ post)).tree.places,
      q.2.label.serial = p.2.label.serial → p.2.flags ≤ q.2.flags := by
  have hr := reachable d w pre
  refine ⟨hr.phased, ?_⟩
  intro p hp q hq hs
  exact (advances d w pre post).flags hr.unshared hp hq hs

/-- A sum in a block that is still open. -/
def sumInOpenBlock : List Call :=
  [.insert ⟨"\x7b", []⟩, .insert ⟨"(", []⟩, .insert ⟨"PLUS", []⟩, .insert ⟨"INT", "1"⟩,
    .insert ⟨"INT", "2"⟩, .insert ⟨")", []⟩]

theorem phases_never_undone_sumInOpenBlock :
    let r := of (none : Option (Dispatcher Unit)) () sumInOpenBlock
    let r' := of (none : Option (Dispatcher Unit)) ()
      (sumInOpenBlock ++ [.insert ⟨"\x7d", []⟩, .evaluate false []])
    (∃ p ∈ r.tree.places, ∃ q ∈ r'.tree.places, p.2.name = "\x7b" ∧
      p.2.flags.phases = [true, false, false, false, false] ∧
      q.2.flags.phases = [true, true, true, true, true] ∧ p.2.flags ≤ q.2.flags) ∧
    ∃ p ∈ r.tree.places, ∃ q ∈ r'.tree.places, p.2.name = "PLUS" ∧
      p.2.flags.phases = [true, true, true, true, false] ∧
      q.2.flags.phases = [true, true, true, true, true] ∧ p.2.flags ≤ q.2.flags := by
  intro r r'
  have hle := (phases_never_undone (none : Option (Dispatcher Unit)) () sumInOpenBlock
    [.insert ⟨"\x7d", []⟩, .evaluate false []]).2
  have hblock : ∃ p ∈ r.tree.places, ∃ q ∈ r'.tree.places, p.2.name = "\x7b" ∧
      q.2.label.serial = p.2.label.serial ∧
      p.2.flags.phases = [true, false, false, false, false] ∧
      q.2.flags.phases = [true, true, true, true, true] := by
    decide +kernel
  have hsum : ∃ p ∈ r.tree.places, ∃ q ∈ r'.tree.places, p.2.name = "PLUS" ∧
      q.2.label.serial = p.2.label.serial ∧
      p.2.flags.phases = [true, true, true, true, false] ∧
      q.2.flags.phases = [true, true, true, true, true] := by
    decide +kernel
  obtain ⟨p, hp, q, hq, hname, hs, hbefore, hafter⟩ := hblock
  obtain ⟨p', hp', q', hq', hname', hs', hbefore', hafter'⟩ := hsum
  exact ⟨⟨p, hp, q, hq, hname, hbefore, hafter, hle p hp q hq hs⟩,
    p', hp', q', hq', hname', hbefore', hafter', hle p' hp' q' hq' hs'⟩

end Run

end TokenShell
