import TokenShell.Proofs.Reordering

/-! Declarations: which names a tree declares, and that analysis declares just these, whatever the
cells of the scopes hold. -/
namespace TokenShell

namespace Scope

variable {s u : Scope} {name : Bytes} {declarer : Nat} {new : List Key}

def Entry.key (e : Entry) : Key := (e.name, e.declarer)

/-- A scope without what evaluation changes: the values of its names. -/
def outline (s : Scope) : Scope := { s with cells := s.cells.filter fun c => !s.declares c.1 }

/-- Every stored value belongs to a declared name. -/
def Covered (s : Scope) : Prop := ∀ c ∈ s.cells, s.declares c.1 = true

/-- Scopes with the same links that declare the same names by the same nodes; what they store may
differ. -/
structure Alike (s u : Scope) : Prop where
  self : s.self = u.self
  outer : s.outer = u.outer
  keys : s.keys = u.keys

/-- A scope with more declarations. -/
def extend (s : Scope) (new : List Key) : Scope := { s with keys := s.keys ++ new }

theorem Alike.refl (s : Scope) : s.Alike s := ⟨rfl, rfl, rfl⟩

theorem Alike.of_outline (h : s.outline = u.outline) : s.Alike u := by
  injection h with hself houter hkeys
  exact ⟨hself, houter, hkeys⟩

theorem Alike.next (h : s.Alike u) : s.next = u.next := by
  rw [Scope.next, Scope.next, h.self, h.outer]

@[simp] theorem extend_nil (s : Scope) : s.extend [] = s := by
  simp [extend]

@[simp] theorem extend_extend (s : Scope) (a b : List Key) :
    (s.extend a).extend b = s.extend (a ++ b) := by
  simp [extend]

@[simp] theorem keys_extend (s : Scope) (new : List Key) : (s.extend new).keys = s.keys ++ new :=
  rfl

theorem Alike.extend (h : s.Alike u) (new : List Key) : (s.extend new).Alike (u.extend new) :=
  ⟨h.self, h.outer, by rw [keys_extend, keys_extend, h.keys]⟩

theorem declares_iff : s.declares name = true ↔ ∃ k ∈ s.keys, k.1 = name := by
  simp [declares, find?]

theorem declares_extend (h : s.declares name = true) (new : List Key) :
    (s.extend new).declares name = true := by
  obtain ⟨k, hk, he⟩ := declares_iff.mp h
  refine declares_iff.mpr ⟨k, ?_, he⟩
  rw [keys_extend]
  exact List.mem_append_left _ hk

theorem Alike.declares (h : s.Alike u) (name : Bytes) : s.declares name = u.declares name := by
  rw [Bool.eq_iff_iff, declares_iff, declares_iff, h.keys]

theorem declare?_eq (s : Scope) (name : Bytes) (declarer : Nat) :
    s.declare? name declarer =
      if s.declares name then none else some (s.extend [(name, declarer)]) := rfl

theorem covered_iff : s.Covered ↔ s.outline.cells = [] := by
  simp [Covered, outline, List.filter_eq_nil_iff]

theorem Covered.of_outline (h : s.Covered) (he : u.outline = s.outline) : u.Covered := by
  rw [covered_iff, he]
  exact covered_iff.mp h

theorem covered_outline : s.outline.Covered ↔ s.Covered := by
  have hlike : s.outline.Alike s := ⟨rfl, rfl, rfl⟩
  constructor
  · intro h c hc
    cases hd : s.declares c.1 with
    | true => rfl
    | false =>
      have ho : c ∈ s.outline.cells := List.mem_filter.mpr ⟨hc, by simp [hd]⟩
      rw [← hd, ← hlike.declares]
      exact h c ho
  · intro h c hc
    rw [covered_iff.mp h] at hc
    cases hc

theorem Covered.extend (h : s.Covered) (new : List Key) : (s.extend new).Covered :=
  fun c hc => declares_extend (h c hc) new

theorem outline_bind (h : s.declares name = true) (v : Value) :
    (s.bind name v).outline = s.outline := by
  have hd : ∀ x, (s.bind name v).declares x = s.declares x := fun _ => by
    rw [Bool.eq_iff_iff, declares_iff, declares_iff]
    rfl
  simp only [outline, hd]
  simp only [bind, List.filter_cons, h, Bool.not_true, Bool.false_eq_true, if_false,
    List.filter_filter]
  congr 1
  refine List.filter_congr fun c _ => ?_
  by_cases hc : c.1 = name <;> simp [hc, h]

/-- No name is declared twice. -/
def Distinct (s : Scope) : Prop := (s.keys.map Prod.fst).Nodup

theorem Distinct.of_outline (h : s.Distinct) (he : u.outline = s.outline) : u.Distinct := by
  rw [Distinct, (Alike.of_outline he).keys]
  exact h

theorem Distinct.extend (h : s.Distinct) (hn : s.declares name = false) :
    (s.extend [(name, declarer)]).Distinct := by
  have hm : name ∉ s.keys.map Prod.fst := by
    intro hm
    obtain ⟨k, hk, he⟩ := List.mem_map.mp hm
    rw [declares_iff.mpr ⟨k, hk, he⟩] at hn
    cases hn
  simpa [Distinct, List.nodup_append] using ⟨h, fun a b hb he => hm (by
    rw [← he]
    exact List.mem_map.mpr ⟨(a, b), hb, rfl⟩)⟩

end Scope

namespace Scopes

variable {ss us : Scopes}

theorem trail_congr (b : Option Nat) (h : List.Forall₂ Scope.Alike ss us) :
    List.Forall₂ (fun x y => x.1 = y.1 ∧ x.2.Alike y.2) (ss.trail b) (us.trail b) := by
  induction h generalizing b with
  | nil => exact .nil
  | cons hs ho ih =>
    rw [trail, trail, hs.self, hs.next, ho.length_eq]
    split
    · exact .cons ⟨rfl, hs⟩ (ih _)
    · exact ih b

theorem lookup_congr (name : Bytes) (b : Option Nat) (h : List.Forall₂ Scope.Alike ss us) :
    lookup name b ss = lookup name b us := by
  rw [lookup, lookup]
  have ht := trail_congr b h
  generalize ss.trail b = xs at ht ⊢
  generalize us.trail b = ys at ht ⊢
  induction ht with
  | nil => rfl
  | @cons x y _ _ hxy _ ih =>
    rw [List.find?_cons, List.find?_cons, hxy.2.declares name]
    cases y.2.declares name with
    | true => exact congrArg some hxy.1
    | false => exact ih

/-- The links lead to scopes of the stack. -/
theorem trail_level {b : Option Nat} {p : Nat × Scope} (h : p ∈ ss.trail b) :
    p.1 < ss.length ∧ ss.level? p.1 = some p.2 := by
  induction ss generalizing b with
  | nil => cases h
  | cons s outer ih =>
    have hlater : ∀ {c}, p ∈ trail c outer →
        p.1 < (s :: outer).length ∧ level? p.1 (s :: outer) = some p.2 := by
      intro c hp
      obtain ⟨hlt, hl⟩ := ih hp
      refine ⟨Nat.lt_succ_of_lt hlt, ?_⟩
      rw [level?, if_neg (Nat.ne_of_gt hlt), hl]
    rw [trail] at h
    split at h
    · rcases List.mem_cons.mp h with rfl | h
      · exact ⟨Nat.lt_succ_self _, if_pos rfl⟩
      · exact hlater h
    · exact hlater h

theorem lookup_level {name : Bytes} {b : Option Nat} {k : Nat} (h : ss.lookup name b = some k) :
    ∃ s, ss.level? k = some s ∧ s.declares name = true := by
  obtain ⟨p, hp, rfl⟩ := Option.map_eq_some_iff.mp h
  have hd := List.find?_some hp
  exact ⟨p.2, (trail_level (List.mem_of_find?_eq_some hp)).2, hd⟩

theorem level?_eq (k : Nat) (ss : Scopes) : ss.level? k = ss.reverse[k]? := by
  induction ss with
  | nil => rfl
  | cons s ss ih =>
    rw [level?, List.reverse_cons, List.getElem?_append, List.length_reverse]
    by_cases hk : ss.length = k
    · rw [if_pos hk, if_neg (by omega), ← hk]
      simp
    · rw [if_neg hk, ih]
      by_cases hlt : k < ss.length
      · rw [if_pos hlt]
      · rw [if_neg hlt, List.getElem?_eq_none (by simp; omega),
          List.getElem?_eq_none (by simp; omega)]

theorem depth_congr (b : Option Nat) (h : List.Forall₂ Scope.Alike ss us) :
    depth b ss = depth b us := by
  rw [depth, depth, (trail_congr b h).length_eq]

end Scopes

/-- The key of a variable's label. -/
def Label.variableKey? (l : Label) : Option Key :=
  match l.form with
  | .variable .. => some (l.token.value, l.serial)
  | _ => none

def Label.isBlock (l : Label) : Bool :=
  match l.form with
  | .block .. => true
  | _ => false

namespace Node

variable {α : Type} {g : Label → List α → α} {n m : Node} {ks js : List Node} {renew : Bool}
  {s s' : Scopes}

def key (n : Node) : Key := (n.label.token.value, n.label.serial)

/-- The keys of all variables of a tree, references included. -/
def identifiers (n : Node) : List Key :=
  n.fold fun l parts => l.variableKey?.toList ++ parts.flatten

/-- What the first child of an initializer declares. -/
def introduced (renew : Bool) : List Node → List Key
  | v :: _ => if v.isVariable && !renew then [v.key] else []
  | [] => []

mutual

/-- The declarations a tree makes in the scope around it, in the order they take effect. Blocks keep
theirs to themselves, and a renewal declares nothing. -/
def declarations (renew : Bool) : Node → List Key
  | mk l ks =>
    match l.form with
    | .block .. => []
    | .declaration renews => declarationsAll renews ks
    | .initializer => declarationsAll false ks ++ introduced renew ks
    | _ => declarationsAll false ks

def declarationsAll (renew : Bool) : List Node → List Key
  | [] => []
  | n :: ns => n.declarations renew ++ declarationsAll renew ns

end

theorem declarationsAll_eq (renew : Bool) (ks : List Node) :
    declarationsAll renew ks = ks.flatMap (declarations renew) := by
  induction ks with
  | nil => rfl
  | cons k ks ih => rw [declarationsAll, ih, List.flatMap_cons]

theorem identifiers_mk (l : Label) (ks : List Node) :
    (mk l ks).identifiers = l.variableKey?.toList ++ ks.flatMap identifiers := by
  rw [identifiers, fold_mk, List.flatMap_def]
  rfl

theorem introduced_subset {k : Key} (h : k ∈ introduced renew ks) : k ∈ ks.flatMap identifiers := by
  cases ks with
  | nil => cases h
  | cons v ks =>
    obtain ⟨l, js⟩ := v
    rw [introduced] at h
    split at h
    · next hv =>
      simp only [isVariable, form_mk, Bool.and_eq_true] at hv
      obtain rfl := List.mem_singleton.mp h
      rw [List.flatMap_cons, identifiers_mk, Label.variableKey?]
      split
      · simp [key]
      · next hf =>
        split at hv
        · next hl => exact (hf _ _ hl).elim
        · simp at hv
    · cases h

/-- Only variables of the tree are declared. -/
theorem declarations_subset {k : Key} (h : k ∈ n.declarations renew) : k ∈ n.identifiers := by
  induction n using induct generalizing renew with
  | h l ks ih =>
    have hall : ∀ {b}, k ∈ declarationsAll b ks → k ∈ (mk l ks).identifiers := by
      intro b hb
      rw [declarationsAll_eq] at hb
      obtain ⟨j, hj, hk⟩ := List.mem_flatMap.mp hb
      rw [identifiers_mk]
      exact List.mem_append_right _ (List.mem_flatMap.mpr ⟨j, hj, ih j hj hk⟩)
    rw [declarations] at h
    split at h
    · cases h
    · exact hall h
    · rcases List.mem_append.mp h with h | h
      · exact hall h
      · rw [identifiers_mk]
        exact List.mem_append_right _ (introduced_subset h)
    · exact hall h

end Node

/-! The effect of analysis on the innermost scope. -/

/-- Work that adds declarations to the innermost scope only, at most the given ones in order, all if
it succeeds and is `exact`, and takes no notice of the cells. -/
def Declares {α : Type} (work : Analysis α) (all : List Key) (exact : Prop) : Prop :=
  ∀ (s u : Scope) (os ou : Scopes), s.Alike u → List.Forall₂ Scope.Alike os ou →
    ∃ (r : Except Failure α) (new : List Key), work (s :: os) = (r, s.extend new :: os) ∧
      work (u :: ou) = (r, u.extend new :: ou) ∧ new.Sublist all ∧
      (exact → ∀ a, r = .ok a → new = all) ∧ (s.Distinct → (s.extend new).Distinct)

namespace Declares

variable {α β : Type} {x : Analysis α} {f : α → Analysis β} {all more : List Key} {e e' : Prop}

theorem unchanged {s u : Scope} {os ou : Scopes} {r : Except Failure α}
    (hs : x (s :: os) = (r, s :: os)) (hu : x (u :: ou) = (r, u :: ou))
    (hr : all = [] ∨ ∀ a, r ≠ .ok a) :
    ∃ (r : Except Failure α) (new : List Key), x (s :: os) = (r, s.extend new :: os) ∧
      x (u :: ou) = (r, u.extend new :: ou) ∧ new.Sublist all ∧
      (e → ∀ a, r = .ok a → new = all) ∧ (s.Distinct → (s.extend new).Distinct) := by
  refine ⟨r, [], by rw [hs, s.extend_nil], by rw [hu, u.extend_nil], List.nil_sublist _, ?_,
    fun h => by rwa [s.extend_nil]⟩
  intro _ a ha
  rcases hr with rfl | hr
  · rfl
  · exact (hr a ha).elim

theorem pure (a : α) : Declares (pure a : Analysis α) [] e :=
  fun _ _ _ _ _ _ => unchanged rfl rfl (Or.inl rfl)

theorem fail (n : Node) (c : Cause) (all : List Key) :
    Declares (Analysis.fail n c : Analysis α) all e :=
  fun _ _ _ _ _ _ => unchanged rfl rfl (Or.inr fun a ha => by cases ha)

theorem mono (h : Declares x all e) (he : e' → e) : Declares x all e' := by
  intro s u os ou hs ho
  obtain ⟨r, new, h1, h2, h3, h4, h5⟩ := h s u os ou hs ho
  exact ⟨r, new, h1, h2, h3, fun h a ha => h4 (he h) a ha, h5⟩

theorem bind (hx : Declares x all e)
    (hf : ∀ a, (∃ s t, x s = (.ok a, t)) → Declares (f a) more e) :
    Declares (x >>= f) (all ++ more) e := by
  intro s u os ou hs ho
  obtain ⟨r, new, h1, h2, h3, h4, h5⟩ := hx s u os ou hs ho
  cases r with
  | error c =>
    refine ⟨.error c, new, by rw [run_bind, h1], by rw [run_bind, h2],
      h3.trans (List.sublist_append_left _ _), ?_, h5⟩
    intro _ a ha
    cases ha
  | ok a =>
    obtain ⟨q, new', k1, k2, k3, k4, k5⟩ :=
      hf a ⟨_, _, h1⟩ (s.extend new) (u.extend new) os ou (hs.extend new) ho
    refine ⟨q, new ++ new', ?_, ?_, h3.append k3, ?_, fun hd => ?_⟩
    · rw [run_bind, h1, ← Scope.extend_extend]
      exact k1
    · rw [run_bind, h2, ← Scope.extend_extend]
      exact k2
    · intro h b hb
      rw [h4 h a rfl, k4 h b hb]
    · rw [← Scope.extend_extend]
      exact k5 (h5 hd)

/-- Work inside a scope of its own leaves the one around it alone. -/
theorem inside (scope : Scope) (hx : Declares x all e) :
    Declares (Analysis.inside scope x) [] e' := by
  intro s u os ou hs ho
  obtain ⟨r, new, h1, h2, -, -, -⟩ := hx scope scope (s :: os) (u :: ou) (.refl _) (.cons hs ho)
  cases r with
  | error c =>
    refine ⟨.error c, [], by simp [Analysis.inside, h1], by simp [Analysis.inside, h2], .slnil,
      fun _ _ _ => rfl, by simp⟩
  | ok a =>
    exact ⟨.ok (a, scope.extend new), [], by simp [Analysis.inside, h1],
      by simp [Analysis.inside, h2], .slnil, fun _ _ _ => rfl, by simp⟩

/-- Where nothing exact is claimed, work that declares nothing declares no more than any list. -/
theorem skip (h : Declares x [] e) (he : ¬ e') (all : List Key) : Declares x all e' := by
  intro s u os ou hs ho
  obtain ⟨r, new, h1, h2, h3, -, h5⟩ := h s u os ou hs ho
  exact ⟨r, new, h1, h2, h3.trans (List.nil_sublist _), fun h => (he h).elim, h5⟩

theorem resolve (v : Node) : Declares v.resolve [] e := by
  intro s u os ou hs ho
  have hl := Scopes.lookup_congr v.label.token.value v.label.block (List.Forall₂.cons hs ho)
  cases hk : Scopes.lookup v.label.token.value v.label.block (s :: os) with
  | none =>
    refine unchanged (r := v.fail (.undeclared v.label.token.value)) ?_ ?_ (Or.inl rfl)
    · simp [Node.resolve_run, hk]
    · simp [Node.resolve_run, ← hl, hk]
  | some k =>
    refine unchanged (r := .ok (v.bindTo k)) ?_ ?_ (Or.inl rfl)
    · simp [Node.resolve_run, hk]
    · simp [Node.resolve_run, ← hl, hk]

theorem introduce (renew : Bool) (b : Option Nat) (v : Node) (ks : List Node) :
    Declares (v.introduce renew b) (Node.introduced renew (v :: ks)) e := by
  intro s u os ou hs ho
  have hl := Scopes.lookup_congr v.label.token.value b (List.Forall₂.cons hs ho)
  have hd := hs.declares v.label.token.value
  cases hv : v.isVariable with
  | false =>
    refine unchanged (r := v.fail (.absent "variable")) ?_ ?_ (Or.inr fun a ha => by cases ha)
    · rw [Node.introduce_run, hv]
      rfl
    · rw [Node.introduce_run, hv]
      rfl
  | true =>
    cases renew with
    | true =>
      have hi : Node.introduced true (v :: ks) = [] := by simp [Node.introduced]
      cases hk : Scopes.lookup v.label.token.value b (s :: os) with
      | none =>
        refine unchanged (r := v.fail (.renewUndeclared v.label.token.value)) ?_ ?_ (Or.inl hi)
        · simp [Node.introduce_run, hv, hk]
        · simp [Node.introduce_run, hv, ← hl, hk]
      | some k =>
        refine unchanged (r := .ok (v.bindTo k)) ?_ ?_ (Or.inl hi)
        · simp [Node.introduce_run, hv, hk]
        · simp [Node.introduce_run, hv, ← hl, hk]
    | false =>
      have hi : Node.introduced false (v :: ks) = [v.key] := by simp [Node.introduced, hv]
      cases hn : s.declares v.label.token.value with
      | true =>
        have hdepth := Scopes.depth_congr (some s.self) (List.Forall₂.cons hs ho)
        refine unchanged (r := v.fail (.nameConflict (Scopes.depth (some s.self) (s :: os))
          v.label.token.value)) ?_ ?_ (Or.inr fun a ha => by cases ha)
        · simp [Node.introduce_run, hv, Analysis.declare, Scope.declare?_eq, hn, Node.fail,
            Label.fail]
        · simp [Node.introduce_run, hv, Analysis.declare, Scope.declare?_eq, ← hd, hn, Node.fail,
            Label.fail, ← hs.self, ← hdepth]
      | false =>
        refine ⟨.ok (v.bindTo os.length), [v.key], ?_, ?_, by rw [hi], fun _ _ _ => hi.symm,
          fun h => h.extend hn⟩
        · simp [Node.introduce_run, hv, Analysis.declare, Scope.declare?_eq, hn, Node.key]
        · simp [Node.introduce_run, hv, Analysis.declare, Scope.declare?_eq, ← hd, hn, Node.key,
            ho.length_eq]

end Declares

namespace Node

variable {n m v : Node} {l : Label} {ks js : List Node} {renew : Bool} {s s' : Scopes}

/-- A tree as it was inserted. -/
def origin (n : Node) : Node := n.fold fun l ks => mk l.origin ks

theorem origin_mk (l : Label) (ks : List Node) :
    (mk l ks).origin = mk l.origin (ks.map origin) := by
  rw [origin, fold_mk]
  rfl

theorem origin_analyze (h : n.analyze renew s = (.ok m, s')) : m.origin = n.origin :=
  fold_analyze (fun l => by rw [Label.origin_scheme]) h

theorem origin_analyzeAll (h : analyzeAll renew ks s = (.ok js, s')) :
    js.map origin = ks.map origin :=
  fold_analyzeAll (fun _ _ _ _ _ _ h => origin_analyze h) h

theorem isVariable_origin (n : Node) : n.origin.isVariable = n.isVariable := by
  obtain ⟨l, ks⟩ := n
  rw [origin_mk]
  simp only [isVariable, form_mk, Label.origin]
  cases l.form <;> rfl

theorem key_origin (n : Node) : n.origin.key = n.key := by
  obtain ⟨l, ks⟩ := n
  rw [origin_mk]
  rfl

theorem introduced_origin (renew : Bool) (ks : List Node) :
    introduced renew (ks.map origin) = introduced renew ks := by
  cases ks with
  | nil => rfl
  | cons v ks => rw [List.map_cons, introduced, introduced, isVariable_origin, key_origin]

theorem declarations_origin (renew : Bool) (n : Node) :
    n.origin.declarations renew = n.declarations renew := by
  induction n using induct generalizing renew with
  | h l ks ih =>
    have hall : ∀ b, declarationsAll b (ks.map origin) = declarationsAll b ks := by
      intro b
      rw [declarationsAll_eq, declarationsAll_eq, List.flatMap_map]
      exact List.flatMap_congr fun k hk => ih k hk b
    rw [origin_mk, declarations.eq_def, declarations.eq_def]
    simp only [Label.origin]
    cases l.form <;> simp only [Form.origin, hall, introduced_origin]

theorem declarations_congr (h : m.origin = n.origin) (renew : Bool) :
    m.declarations renew = n.declarations renew := by
  rw [← declarations_origin, h, declarations_origin]

/-- No node outside the blocks of the tree is analyzed or evaluated. -/
def Raw (n : Node) : Prop :=
  ∀ l ∈ n.sequence Label.isBlock, l.flags.analyzed = false ∧ l.flags.evaluated = false

theorem raw_mk : (mk l ks).Raw ↔ (l.flags.analyzed = false ∧ l.flags.evaluated = false) ∧
    (l.isBlock = false → ∀ k ∈ ks, k.Raw) := by
  constructor
  · intro h
    refine ⟨h l.draft (mem_sequence_mk.mpr (Or.inl rfl)), fun hl k hk x hx => ?_⟩
    exact h x (mem_sequence_mk.mpr (Or.inr ⟨hl, k, hk, hx⟩))
  · rintro ⟨hf, hk⟩ x hx
    rcases mem_sequence_mk.mp hx with rfl | ⟨hl, k, hm, hx⟩
    · exact hf
    · exact hk hl k hm x hx

theorem Raw.flags (h : n.Raw) : n.flags.analyzed = false ∧ n.flags.evaluated = false := by
  obtain ⟨l, ks⟩ := n
  exact (raw_mk.mp h).1

theorem analyzeAll_declares
    (h : ∀ k ∈ ks, ∀ b, Declares (k.analyze b) (k.declarations b) k.Raw) (renew : Bool) :
    Declares (analyzeAll renew ks) (declarationsAll renew ks) (∀ k ∈ ks, k.Raw) := by
  induction ks with
  | nil => exact .pure _
  | cons k ks ih =>
    rw [analyzeAll, declarationsAll]
    refine ((h k (by simp) renew).mono fun hr => hr k (by simp)).bind fun j _ => ?_
    rw [← List.append_nil (declarationsAll renew ks)]
    refine ((ih fun j hj => h j (by simp [hj])).mono fun hr j hj => hr j (by simp [hj])).bind
      fun js _ => .pure _

theorem analyzeHead_declares (renew : Bool) (l : Label) (js : List Node) {e : Prop} :
    Declares ((mk l js).analyzeHead renew)
      (if l.form = .initializer then introduced renew js else []) e := by
  rcases analyzeHead_cases renew (mk l js) with ⟨b, hf, he⟩ | ⟨_, v, ks, hn, hf, he⟩ |
    ⟨_, hn, hf, he⟩ | ⟨-, hf, he⟩
  · rw [he, if_neg]
    · exact .resolve _
    · rw [form_mk] at hf
      simp [hf]
  · cases hn
    rw [he, if_pos hf, ← List.append_nil (introduced _ _)]
    exact (Declares.introduce renew _ v ks).bind fun _ _ => .pure _
  · rw [he]
    exact .fail _ _ _
  · rw [form_mk] at hf
    rw [he, if_neg hf]
    exact .pure _

/-- Analysis declares in the innermost scope what the tree declares. -/
theorem analyze_declares (renew : Bool) (n : Node) :
    Declares (n.analyze renew) (n.declarations renew) n.Raw := by
  induction n using induct generalizing renew with
  | h l ks ih =>
    have hall : ∀ b, Declares (analyzeAll b ks) (declarationsAll b ks) (∀ k ∈ ks, k.Raw) :=
      analyzeAll_declares fun k hk b => ih k hk b
    rcases analyze_cases renew l ks with ⟨ha, he⟩ | ⟨-, -, he⟩ | ⟨-, kind, scope, hf, he⟩ |
      ⟨-, renews, hf, he⟩ | ⟨-, hb, hd, he⟩
    · rw [he]
      refine (Declares.pure (e := True) _).skip ?_ _
      intro hr
      rw [(raw_mk.mp hr).1.1] at ha
      cases ha
    · rw [he]
      exact .fail _ _ _
    · have hdecl : (mk l ks).declarations renew = [] ++ [] := by
        rw [declarations, hf]
        rfl
      rw [he, hdecl]
      exact ((hall false).inside scope).bind fun _ _ => .pure _
    · have hdecl : (mk l ks).declarations renew = declarationsAll renews ks ++ [] := by
        rw [declarations, hf, List.append_nil]
      have hraw : (mk l ks).Raw → ∀ k ∈ ks, k.Raw := fun hr =>
        (raw_mk.mp hr).2 (by simp [Label.isBlock, hf])
      rw [he, hdecl]
      exact ((hall renews).mono hraw).bind fun _ _ => .pure _
    · have hdecl : (mk l ks).declarations renew = declarationsAll false ks ++
          ((if l.form = .initializer then introduced renew ks else []) ++ []) := by
        rw [declarations.eq_def, List.append_nil]
        cases hf : l.form <;> simp_all
      have hraw : (mk l ks).Raw → ∀ k ∈ ks, k.Raw := fun hr =>
        (raw_mk.mp hr).2 (by
          rw [Label.isBlock]
          split
          · next hf => exact (hb _ _ hf).elim
          · rfl)
      rw [he, hdecl]
      refine ((hall false).mono hraw).bind fun js hjs => ?_
      obtain ⟨s, t, hjs⟩ := hjs
      have hi : introduced renew js = introduced renew ks := by
        rw [← introduced_origin, origin_analyzeAll hjs, introduced_origin]
      rw [← hi]
      exact (analyzeHead_declares renew l js).bind fun _ _ => .pure _

end Node

end TokenShell
