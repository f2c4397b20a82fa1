import Mathlib.Data.List.Forall2
import TokenShell.Tree.Basic
import TokenShell.Tree.Evaluation

/-! Induction over nodes, and how work that may fail is taken apart. -/
namespace TokenShell

section Effects

variable {α β S : Type}

theorem except_bind_ok {x : Except Failure α} {f : α → Except Failure β} {b : β} :
    (x >>= f) = .ok b ↔ ∃ a, x = .ok a ∧ f a = .ok b := by
  cases x <;> simp [bind, Except.bind]

theorem mapM_ok {f : α → Except Failure β} {xs : List α} {ys : List β} (h : xs.mapM f = .ok ys) :
    List.Forall₂ (fun x y => f x = .ok y) xs ys := by
  induction xs generalizing ys with
  | nil =>
    cases h
    exact .nil
  | cons x xs ih =>
    rw [List.mapM_cons] at h
    obtain ⟨y, hy, h⟩ := except_bind_ok.mp h
    obtain ⟨ys, hys, h⟩ := except_bind_ok.mp h
    cases h
    exact .cons hy (ih hys)

theorem exists_mapM_ok {f : α → Except Failure β} {R : α → β → Prop} {xs : List α}
    (h : ∀ x ∈ xs, ∃ y, f x = .ok y ∧ R x y) :
    ∃ ys, xs.mapM f = .ok ys ∧ List.Forall₂ R xs ys := by
  induction xs with
  | nil => exact ⟨[], rfl, .nil⟩
  | cons x xs ih =>
    obtain ⟨hx, hxs⟩ := List.forall_mem_cons.mp h
    obtain ⟨y, hy, hr⟩ := hx
    obtain ⟨ys, hys, hrs⟩ := ih hxs
    exact ⟨y :: ys, by rw [List.mapM_cons, hy, hys]; rfl, .cons hr hrs⟩

theorem run_bind (x : ExceptT Failure (StateM S) α) (f : α → ExceptT Failure (StateM S) β) (s : S) :
    (x >>= f) s = match x s with
      | (.ok a, s) => f a s
      | (.error e, s) => (.error e, s) := by
  simp only [bind, ExceptT.bind, ExceptT.mk, StateT.bind]
  rcases x s with ⟨_ | _, _⟩ <;> rfl

theorem run_pure (a : α) (s : S) : (pure a : ExceptT Failure (StateM S) α) s = (.ok a, s) := rfl

theorem run_lift (x : Except Failure α) (s : S) :
    (liftM x : ExceptT Failure (StateM S) α) s = (x, s) := by
  cases x <;> rfl

theorem run_bind_ok {x : ExceptT Failure (StateM S) α} {f : α → ExceptT Failure (StateM S) β}
    {s u : S} {b : β} :
    (x >>= f) s = (.ok b, u) ↔ ∃ a t, x s = (.ok a, t) ∧ f a t = (.ok b, u) := by
  rw [run_bind]
  rcases x s with ⟨e | a, t⟩
  · refine ⟨fun h => (nomatch h), ?_⟩
    rintro ⟨a, t, h, -⟩
    cases h
  · refine ⟨fun h => ⟨a, t, rfl, h⟩, ?_⟩
    rintro ⟨a, t, h, hf⟩
    cases h
    exact hf

/-- Work done for the first and then for the rest of a list. -/
theorem run_cons_ok {x : ExceptT Failure (StateM S) α} {xs : ExceptT Failure (StateM S) (List α)}
    {s u : S} {zs : List α} :
    (do
      let a ← x
      return a :: (← xs) : ExceptT Failure (StateM S) (List α)) s = (.ok zs, u) ↔
      ∃ a as t, x s = (.ok a, t) ∧ xs t = (.ok as, u) ∧ zs = a :: as := by
  rw [run_bind_ok]
  refine exists_congr fun a => ?_
  constructor
  · rintro ⟨t, hx, h⟩
    obtain ⟨as, _, hxs, h⟩ := run_bind_ok.mp h
    cases h
    exact ⟨as, t, hx, hxs, rfl⟩
  · rintro ⟨as, t, hx, hxs, rfl⟩
    exact ⟨t, hx, run_bind_ok.mpr ⟨as, u, hxs, rfl⟩⟩

theorem run_bind_error {x : ExceptT Failure (StateM S) α} (f : α → ExceptT Failure (StateM S) β)
    {s : S} {e : Failure} (h : (x s).1 = .error e) : ((x >>= f) s).1 = .error e := by
  rw [run_bind]
  rcases hx : x s with ⟨e' | a, t⟩
  · rw [hx] at h
    cases h
    rfl
  · rw [hx] at h
    cases h

end Effects

namespace Node

theorem induct {P : Node → Prop} (h : ∀ l ks, (∀ k ∈ ks, P k) → P (.mk l ks)) : ∀ n, P n
  | .mk l ks => h l ks fun k _ => induct h k

variable {α : Type} {f : Label → List α → α}

theorem foldAll_eq_map (f : Label → List α → α) (ns : List Node) :
    foldAll f ns = ns.map (fold f) := by
  induction ns with
  | nil => rfl
  | cons n ns ih => rw [foldAll, ih, List.map_cons]

theorem fold_mk (f : Label → List α → α) (l : Label) (ks : List Node) :
    (mk l ks).fold f = f l (ks.map (fold f)) := by
  rw [fold, foldAll_eq_map]

@[simp] theorem label_mk (l : Label) (ks : List Node) : (mk l ks).label = l := rfl

@[simp] theorem kids_mk (l : Label) (ks : List Node) : (mk l ks).kids = ks := rfl

@[simp] theorem setLabel_mk (l m : Label) (ks : List Node) : (mk l ks).setLabel m = mk m ks := rfl

@[simp] theorem form_mk (l : Label) (ks : List Node) : (mk l ks).form = l.form := rfl

@[simp] theorem flags_mk (l : Label) (ks : List Node) : (mk l ks).flags = l.flags := rfl

@[simp] theorem adopt_mk (p : Option Nat) (l : Label) (ks : List Node) :
    (mk l ks).adopt p = mk { l with parent := p } ks := rfl

@[simp] theorem kids_adopt (p : Option Nat) (n : Node) : (n.adopt p).kids = n.kids := rfl

@[simp] theorem label_adopt (p : Option Nat) (n : Node) :
    (n.adopt p).label = { n.label with parent := p } := rfl

@[simp] theorem adopt_adopt (p q : Option Nat) (n : Node) : (n.adopt p).adopt q = n.adopt q := rfl

theorem adopt_self {p : Option Nat} {n : Node} (h : n.label.parent = p) : n.adopt p = n := by
  subst h
  cases n
  rfl

theorem analyzeAll_cons_ok {renew : Bool} {k : Node} {ks js : List Node} {s s' : Scopes} :
    analyzeAll renew (k :: ks) s = (.ok js, s') ↔ ∃ k' ks' t,
      k.analyze renew s = (.ok k', t) ∧ analyzeAll renew ks t = (.ok ks', s') ∧ js = k' :: ks' := by
  rw [analyzeAll, run_cons_ok]

theorem evaluateAll_cons_ok {σ : Type} {d : Option (Dispatcher σ)} {k : Node} {ks js : List Node}
    {m m' : Machine σ} :
    evaluateAll d (k :: ks) m = (.ok js, m') ↔ ∃ k' ks' t,
      k.evaluate d m = (.ok k', t) ∧ evaluateAll d ks t = (.ok ks', m') ∧ js = k' :: ks' := by
  rw [evaluateAll, run_cons_ok]

end Node

end TokenShell
