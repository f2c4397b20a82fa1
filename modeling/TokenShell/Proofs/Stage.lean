import TokenShell.Proofs.Basic

/-! The stages at which something can go wrong, and work that goes wrong at given stages only. -/
namespace TokenShell

/-- Where a failure comes from: the nesting of the tokens, one of the phases, or a guard. -/
inductive Cause.Stage where
  | nesting
  | shape
  | precedence
  | scope
  | evaluation
  | guard
  deriving DecidableEq

def Cause.stage : Cause → Cause.Stage
  | headMissing | terminatorAfterOpen | terminatorInside _ | openerAsHead _ | closerAfterOpen _
  | unmatched _ => .nesting
  | tooManyOperands .. | expressionWidth _ | emptyCommand | unfitCommandPart _
  | fragmentWithChildren | variableWithChildren _ | namelessVariable | literalWithChildren
  | invalidInteger _ | invalidFixed _ | emptyDeclaration _ | unfitDeclarationPart ..
  | strayInitializer | typedInitializer | initializerWidth _ | unnamedInitializer
  | groupWidth _ => .shape
  | unknownPriority .. | looseOperand .. => .precedence
  | nameConflict .. | renewUndeclared _ | undeclared _ => .scope
  | operation .. | noLongerDeclared _ | noDispatcher _ | dispatchFailed _
  | statusNotInteger _ => .evaluation
  | blockText _ | attachToCompleted _ | setupBeforeParent | completeBeforeSetup | reorderIncomplete
  | analyzeBeforeReorder | evaluateBeforeAnalysis | priorityOfIncomplete _ | unresolvedInChain _
  | unresolvedInEvaluation _ | leftover _ | missingOperand | missingLeftOperand _ | operandCount ..
  | belowTighter .. | absent _ => .guard

/-- A result as described, or a failure at one of the given stages. -/
def Meets {α : Type} (stages : List Cause.Stage) (x : Except Failure α) (post : α → Prop) : Prop :=
  match x with
  | .ok a => post a
  | .error f => f.cause.stage ∈ stages

/-- What the second components of related lists have in common. -/
theorem forall_of_forall₂ {α β : Type} {R : α → β → Prop} {Q : β → Prop} {xs : List α}
    {ys : List β} (h : List.Forall₂ R xs ys) (hq : ∀ x ∈ xs, ∀ y, R x y → Q y) : ∀ y ∈ ys, Q y := by
  induction h with
  | nil => simp
  | cons hr _ ih =>
    intro y hy
    rcases List.mem_cons.mp hy with rfl | hy
    · exact hq _ (by simp) _ hr
    · exact ih (fun x hx => hq x (by simp [hx])) y hy

namespace Meets

variable {α β : Type} {stages more : List Cause.Stage} {x : Except Failure α}
  {f : α → Except Failure β} {P P' : α → Prop} {Q : β → Prop}

theorem pure {a : α} (h : P a) : Meets stages (pure a) P := h

theorem fail {l : Label} {c : Cause} (h : c.stage ∈ stages) : Meets stages (l.fail c) P := h

theorem mono (h : Meets stages x P) (hs : stages ⊆ more) (hp : ∀ a, P a → P' a) :
    Meets more x P' := by
  cases x with
  | error e => exact hs h
  | ok a => exact hp a h

theorem imp (h : Meets stages x P) (hp : ∀ a, P a → P' a) : Meets stages x P' :=
  h.mono (List.Subset.refl _) hp

theorem bind (hx : Meets stages x P) (hf : ∀ a, P a → Meets stages (f a) Q) :
    Meets stages (x >>= f) Q := by
  cases x with
  | error e => exact hx
  | ok a => exact hf a hx

theorem mapM {xs : List α} {R : α → β → Prop} (h : ∀ x ∈ xs, Meets stages (f x) (R x)) :
    Meets stages (xs.mapM f) (List.Forall₂ R xs) := by
  induction xs with
  | nil => exact List.Forall₂.nil
  | cons x xs ih =>
    rw [List.mapM_cons]
    have hx := h x (by simp)
    have hxs := ih fun y hy => h y (by simp [hy])
    apply hx.bind
    intro y hy
    apply hxs.bind
    intro ys hys
    exact List.Forall₂.cons hy hys

end Meets

/-- Work that keeps an invariant of its state, with a result or a failure as described. -/
def Upholds {α S : Type} (stages : List Cause.Stage) (inv : S → Prop)
    (work : ExceptT Failure (StateM S) α) (post : α → Prop) : Prop :=
  ∀ s, inv s → inv (work s).2 ∧ Meets stages (work s).1 post

namespace Upholds

variable {α β S : Type} {stages : List Cause.Stage} {inv : S → Prop}
  {x : ExceptT Failure (StateM S) α} {f : α → ExceptT Failure (StateM S) β} {P P' : α → Prop}
  {Q : β → Prop}

theorem pure {a : α} (h : P a) : Upholds stages inv (pure a) P := by
  intro s hs
  exact ⟨hs, h⟩

theorem imp (h : Upholds stages inv x P) (hp : ∀ a, P a → P' a) : Upholds stages inv x P' := by
  intro s hs
  obtain ⟨hi, hm⟩ := h s hs
  exact ⟨hi, hm.imp hp⟩

theorem bind (hx : Upholds stages inv x P) (hf : ∀ a, P a → Upholds stages inv (f a) Q) :
    Upholds stages inv (x >>= f) Q := by
  intro s hs
  obtain ⟨hi, hm⟩ := hx s hs
  rw [run_bind]
  rcases hr : x s with ⟨e | a, t⟩
  · rw [hr] at hi hm
    exact ⟨hi, hm⟩
  · rw [hr] at hi hm
    exact hf a hm t hi

end Upholds

end TokenShell
