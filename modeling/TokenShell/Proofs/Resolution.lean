import TokenShell.Proofs.Mentions

/-! Analysis takes the variables of a tree one after the other: each is looked up in, or entered
into, the scopes as the ones before it have left them. -/
namespace TokenShell

/-! Nodes inside the blocks of a tree that is closed are analyzed. -/

namespace Label

/-- The mark of a node that is not analyzed. -/
def pending (l : Label) : List Bool := if l.flags.analyzed then [] else [true]

end Label

namespace Node

variable {n m k : Node} {l : Label} {ks : List Node} {x : Bool}

def looseStep (l : Label) (parts : List (List Bool)) : List Bool :=
  if l.isBlock then l.pending ++ parts.flatten.map fun _ => false
  else
    match l.isOperator, parts with
    | true, [x, y] => x ++ l.pending ++ y
    | _, parts => l.pending ++ parts.flatten

/-- A mark for each node that is not analyzed, a false one if it is inside a block of the tree. -/
def loose (n : Node) : List Bool := n.fold looseStep

/-- Only nodes outside the blocks of the tree may not be analyzed. -/
def Sealed (n : Node) : Prop := false ∉ n.loose

theorem looseStep_sequential : Sequential Label.pending looseStep where
  draft l := by
    have ho : l.draft.isOperator = l.isOperator := by
      simp only [Label.isOperator, Label.draft]
      cases l.form <;> rfl
    funext parts
    rw [looseStep.eq_def, looseStep.eq_def, Label.isBlock_draft, ho]
    rfl
  unary l x ho _ := by simp [looseStep, Label.not_isBlock_of_operator ho]
  binary l x y ho _ := by simp [looseStep, Label.not_isBlock_of_operator ho, ho]

theorem mem_loose_mk : x ∈ (mk l ks).loose ↔ x ∈ l.pending ∨
    if l.isBlock = true then x = false ∧ ∃ k ∈ ks, k.loose ≠ [] else ∃ k ∈ ks, x ∈ k.loose := by
  have hkids : ∀ parts : List (List Bool), ks.map loose = parts →
      (x ∈ parts.flatten ↔ ∃ k ∈ ks, x ∈ k.loose) := by
    rintro _ rfl
    rw [← List.flatMap_def, List.mem_flatMap]
  rw [loose, fold_mk, looseStep.eq_def]
  split
  · rw [List.mem_append]
    refine or_congr_right ?_
    have he : (ks.map (fold looseStep)).flatten = ks.flatMap loose := (List.flatMap_def).symm
    rw [he]
    constructor
    · intro h
      obtain ⟨y, hy, rfl⟩ := List.mem_map.mp h
      obtain ⟨k, hk, hy⟩ := List.mem_flatMap.mp hy
      exact ⟨rfl, k, hk, List.ne_nil_of_mem hy⟩
    · rintro ⟨rfl, k, hk, hne⟩
      obtain ⟨y, hy⟩ := List.exists_mem_of_ne_nil _ hne
      exact List.mem_map.mpr ⟨y, List.mem_flatMap.mpr ⟨k, hk, hy⟩, rfl⟩
  · split
    · next y z _ hx =>
      rw [← hkids _ hx]
      simp only [List.mem_append, List.flatten_cons, List.flatten_nil, List.append_nil]
      tauto
    · rw [List.mem_append]
      exact or_congr_right (hkids _ rfl)

theorem false_not_mem_pending (l : Label) : false ∉ l.pending := by
  unfold Label.pending
  split <;> simp

theorem sealed_mk : (mk l ks).Sealed ↔
    if l.isBlock = true then ∀ k ∈ ks, k.loose = [] else ∀ k ∈ ks, k.Sealed := by
  have hp := false_not_mem_pending l
  rw [Sealed, mem_loose_mk]
  split <;> simp [hp, Sealed]

theorem Settled.loose (h : n.Settled) : n.loose = [] := by
  induction n using induct with
  | h l ks ih =>
    refine List.eq_nil_iff_forall_not_mem.mpr fun x hx => ?_
    have hk : ∀ k ∈ ks, k.loose = [] := fun k hk => ih k hk (h.kids k hk)
    obtain ⟨b, hf⟩ := h.flags
    rw [flags_mk] at hf
    rcases mem_loose_mk.mp hx with hx | hx
    · simp [Label.pending, hf] at hx
    · split at hx
      · obtain ⟨-, k, hm, hne⟩ := hx
        exact hne (hk k hm)
      · obtain ⟨k, hm, hx⟩ := hx
        simp [hk k hm] at hx

theorem Settled.sealed (h : n.Settled) : n.Sealed := by
  simp [Sealed, h.loose]

/-- In a tree that is ahead inside its blocks only, whatever has no mark is settled. -/
theorem settled_of_loose {P : Label → List Label → Prop}
    (hP : ∀ l ks, P l ks → l.flags.analyzed = false)
    (hk : k.Upper P ∨ l.isBlock = true ∧ k.Settled) (h : k.loose = []) : k.Settled := by
  rcases hk with hu | ⟨-, hs⟩
  · obtain ⟨kl, kks⟩ := k
    have ha : kl.flags.analyzed = false := hP _ _ hu.label
    have hp : true ∈ (mk kl kks).loose := mem_loose_mk.mpr (Or.inl (by simp [Label.pending, ha]))
    rw [h] at hp
    cases hp
  · exact hs

/-! Declared variables stand first below an initializer and nowhere else. -/

def castStep (l : Label) (parts : List (List (Bool × Bool))) : List (Bool × Bool) :=
  match l.form, parts with
  | .block .., _ => []
  | .variable d _, parts => (false, d) :: parts.flatten
  | .initializer, ((_, d) :: more) :: rest => (true, d) :: (more ++ rest.flatten)
  | _, parts => parts.flatten

/-- For each variable outside the blocks of a tree whether it stands first below an initializer, and
whether it is marked as declaring. -/
def casts (n : Node) : List (Bool × Bool) := n.fold castStep

/-- The marks agree with the places. -/
def Cast (n : Node) : Prop := ∀ c ∈ n.casts, c.1 = c.2

theorem castStep_congr {l m : Label} (hd : m.form.sketch = l.form.sketch) (hp : m.part = l.part) :
    castStep m = castStep l := by
  funext parts
  rw [castStep.eq_def, castStep.eq_def]
  rw [Label.part, Label.part] at hp
  cases hl : l.form with
  | «variable» d b =>
    cases hm : m.form with
    | «variable» e c =>
      rw [hl, hm] at hp
      obtain rfl : e = d := by cases e <;> cases d <;> simp [Form.part] at hp ⊢
      rfl
    | _ => simp [hl, hm, Form.sketch] at hd
  | _ =>
    cases hm : m.form <;> simp [hl, hm, Form.sketch] at hd
    rfl

theorem castStep_inOrder : InOrder (fun _ => []) castStep where
  adopt l p := castStep_congr rfl rfl
  bind l ks := by
    refine castStep_congr ?_ ?_
    · exact congrArg Label.form (l.sketch_bind ks)
    · unfold Operand.bind
      split
      · next hf => simp [Label.part, hf, Form.part]
      · rfl
  mark l := castStep_congr rfl rfl
  unary l x ho _ := by
    obtain ⟨s, a, k, hf⟩ := Label.isOperator_iff.mp ho
    simp [castStep, hf]
  binary l x y ho _ := by
    obtain ⟨s, a, k, hf⟩ := Label.isOperator_iff.mp ho
    simp [castStep, hf]

theorem casts_mk (l : Label) (ks : List Node) : (mk l ks).casts = castStep l (ks.map casts) := by
  rw [casts, fold_mk]
  rfl

theorem cast_other (hb : l.isBlock = false) (hi : l.form ≠ .initializer)
    (hv : ∀ d k, l.form ≠ .variable d k) : (mk l ks).Cast ↔ ∀ k ∈ ks, k.Cast := by
  have he : (mk l ks).casts = ks.flatMap casts := by
    rw [casts_mk, castStep.eq_def, List.flatMap_def]
    split
    · next hf => simp [Label.isBlock, hf] at hb
    · next hf => exact (hv _ _ hf).elim
    · next hf _ => exact (hi hf).elim
    · rfl
  simp only [Cast, he, List.mem_flatMap]
  constructor
  · intro h k hk c hc
    exact h c ⟨k, hk, hc⟩
  · rintro h c ⟨k, hk, hc⟩
    exact h k hk c hc

theorem cast_variable {d : Bool} {k : Option Nat} (hf : l.form = .variable d k) :
    (mk l []).Cast ↔ d = false := by
  simp [Cast, casts_mk, castStep, hf, eq_comm]

theorem cast_initializer {v : Label} {d : Bool} {k : Option Nat} (hf : l.form = .initializer)
    (hv : v.form = .variable d k) :
    (mk l (mk v [] :: ks)).Cast ↔ d = true ∧ ∀ k ∈ ks, k.Cast := by
  have hfirst : (mk v []).casts = [(false, d)] := by simp [casts_mk, castStep, hv]
  have he : (mk l (mk v [] :: ks)).casts = (true, d) :: ks.flatMap casts := by
    simp [casts_mk l, castStep, hf, hfirst, List.flatMap_def]
  simp only [Cast, he, List.forall_mem_cons, List.mem_flatMap, eq_comm]
  exact and_congr_right fun _ => ⟨fun h k hk c hc => h c ⟨k, hk, hc⟩,
    fun h c ⟨k, hk, hc⟩ => h k hk c hc⟩

/-- The shape rule marks the variable of an initializer and leaves all other children alone. -/
theorem checkShape_kids {inside : Bool} {form : Form} {is js : List Node}
    (h : l.checkShape inside js = .ok (form, is)) :
    l.form ≠ .initializer ∧ is = js ∨ l.form = .initializer ∧
      ∃ first rest v, js = first :: rest ∧ first.declared? = some v ∧ is = v :: rest := by
  by_cases hf : l.form = .initializer
  · right
    refine ⟨hf, ?_⟩
    rw [Label.checkShape, hf] at h
    obtain ⟨is', hi, h⟩ := except_bind_ok.mp h
    cases h
    unfold Label.completeInitializer at hi
    split at hi
    · cases hi
    · split at hi <;> try cases hi
      all_goals
        split at hi
        · next v hv =>
          cases hi
          exact ⟨_, _, v, rfl, hv, rfl⟩
        · cases hi
  · left
    refine ⟨hf, ?_⟩
    unfold Label.checkShape at h
    split at h
    case h_9 hi => exact (hf hi).elim
    case h_1 =>
      obtain ⟨a, -, h⟩ := except_bind_ok.mp h
      cases h
      rfl
    case h_7 =>
      split at h
      · cases h
      · obtain ⟨v, -, h⟩ := except_bind_ok.mp h
        cases h
        rfl
    all_goals grind [Label.fail, Node.fail]

theorem cast_step {parts : List (List (Bool × Bool))} (hp : ∀ p ∈ parts, ∀ c ∈ p, c.1 = c.2)
    (hi : l.form ≠ .initializer) (hd : l.part ≠ .declared) :
    ∀ c ∈ castStep l parts, c.1 = c.2 := by
  have hflat : ∀ c ∈ parts.flatten, c.1 = c.2 := by
    intro c hc
    obtain ⟨p, hm, hc⟩ := List.mem_flatten.mp hc
    exact hp p hm c hc
  rw [castStep.eq_def]
  split
  · simp
  · next d k hf =>
    have hdf : d = false := by
      cases d
      · rfl
      · simp [Label.part, hf, Form.part] at hd
    exact List.forall_mem_cons.mpr ⟨hdf.symm, hflat⟩
  · next hf => exact (hi hf).elim
  · exact hflat

/-- Completion of a tree that is set up marks the variables of its initializers and no others. -/
theorem cast_complete {inside : Bool} (hn : n.Upper Label.Planted)
    (h : n.complete inside = .ok m) : m.Cast := by
  induction n using induct generalizing inside m with
  | h l ks ih =>
    obtain ⟨hl, -⟩ := upper_mk.mp hn
    obtain ⟨js, form, is, hjs, hs, rfl⟩ := (complete_ok h).resolve_left (by simp [hl.flags])
    have hdraft := (checkShape_ok (g := fun _ (_ : List Unit) => ()) (fun _ => rfl) hs).1
    have hpart := checkShape_meets l inside js
    rw [hs] at hpart
    have hstep : castStep { l with form, flags := { l.flags with complete := true } } =
        castStep l := castStep_congr hdraft hpart.1
    rw [Cast, casts_mk, hstep]
    by_cases hb : l.isBlock = true
    · obtain ⟨kind, scope, hf⟩ := Label.isBlock_iff.mp hb
      simp [castStep, hf]
    have hkids := hn.kids (by simpa using hb)
    have hcast : ∀ j ∈ js, j.Cast :=
      forall_of_forall₂ (mapM_ok hjs) fun k hm j hj => ih k hm (hkids k hm) hj
    rcases checkShape_kids hs with ⟨hi, rfl⟩ | ⟨hi, first, rest, v, rfl, hv, rfl⟩
    · refine cast_step ?_ hi hl.undeclared
      intro p hp
      obtain ⟨j, hj, rfl⟩ := List.mem_map.mp hp
      exact hcast j hj
    · have hfirst := hcast first (by simp)
      obtain ⟨fl, fks⟩ := first
      rw [declared?] at hv
      split at hv
      · next d k hf =>
        cases hv
        rw [form_mk] at hf
        rw [Cast, casts_mk, castStep.eq_def, hf] at hfirst
        have hvar : (mk { fl with form := .variable true k } fks).casts =
            (false, true) :: (fks.map casts).flatten := by
          rw [casts_mk, castStep.eq_def]
        rw [setLabel_mk, label_mk, List.map_cons, hvar, castStep.eq_def, hi]
        intro c hc
        rcases List.mem_cons.mp hc with rfl | hc
        · rfl
        · rcases List.mem_append.mp hc with hc | hc
          · exact hfirst c (List.mem_cons_of_mem _ hc)
          · rw [← List.flatMap_def] at hc
            obtain ⟨j, hj, hc⟩ := List.mem_flatMap.mp hc
            exact hcast j (by simp [hj]) c hc
      · cases hv

end Node

/-! Analysis over the variables alone. -/

namespace Mention

variable {m : Mention} {s : Scope} {os : Scopes}

def boundTo (k : Nat) (m : Mention) : Mention := { m with binding := some k, analyzed := true }

def failure (m : Mention) (c : Cause) : Failure := { cause := c, node := some m.token }

/-- What is wrong if no scope declares the name. -/
def missing (m : Mention) : Cause :=
  if m.role = .renews then .renewUndeclared m.name else .undeclared m.name

/-- The variable is bound to the first scope on the way out that declares its name. -/
def find (m : Mention) : Analysis Mention := fun ss =>
  match ss.lookup m.name m.block with
  | some k => (.ok (m.boundTo k), ss)
  | none => (.error (m.failure m.missing), ss)

/-- The variable is declared in the innermost scope. -/
def enter (m : Mention) : Analysis Mention := fun
  | [] => (.error (m.failure (.absent "scope")), [])
  | s :: outer =>
    match s.declare? m.name m.serial with
    | some s => (.ok (m.boundTo outer.length), s :: outer)
    | none =>
      (.error (m.failure (.nameConflict (Scopes.depth (some s.self) (s :: outer)) m.name)),
        s :: outer)

def analyze (m : Mention) : Analysis Mention := if m.role = .declares then m.enter else m.find

end Mention

/-- What is inside a block has been analyzed with its block. -/
def Sight.analyze : Sight → Analysis Sight
  | mention m => if m.isOuter then mention <$> m.analyze else pure (mention m)
  | s => pure s

theorem Sight.mapM_analyze_inner {xs : List Sight} (h : ∀ x ∈ xs, x.isOuter = false) :
    xs.mapM analyze = pure xs := by
  induction xs with
  | nil => rfl
  | cons x xs ih =>
    have hx : x.analyze = pure x := by
      cases x with
      | mention m => rw [analyze, if_neg (by simpa [isOuter] using h (.mention m) (by simp))]
      | scope _ _ => rfl
    rw [List.mapM_cons, hx, pure_bind, ih fun y hy => h y (by simp [hy]), pure_bind]

namespace Node

variable {n m v : Node} {l : Label} {ks : List Node} {renew : Bool}

theorem analyzeAll_settled (h : ∀ k ∈ ks, k.Settled) : analyzeAll renew ks = pure ks := by
  induction ks with
  | nil => rfl
  | cons k ks ih =>
    rw [analyzeAll, (h k (by simp)).analyze, pure_bind, ih fun i hi => h i (by simp [hi]),
      pure_bind]

theorem analyzeAll_sights
    (h : ∀ k ∈ ks, (k.sights renew).mapM Sight.analyze = sights renew <$> k.analyze renew) :
    (ks.flatMap (sights renew)).mapM Sight.analyze =
      (fun js => js.flatMap (sights renew)) <$> analyzeAll renew ks := by
  induction ks with
  | nil => rfl
  | cons k ks ih =>
    rw [List.flatMap_cons, List.mapM_append, h k (by simp), ih fun i hi => h i (by simp [hi]),
      analyzeAll]
    simp only [map_eq_pure_bind, bind_assoc, pure_bind, List.flatMap_cons]

/-- A block has nothing left to analyze but itself. -/
theorem block_sights {kind : BlockKind} {scope : Scope} (hf : l.form = .block kind scope)
    (hk : ∀ k ∈ ks, k.Settled) : ((mk l ks).sights renew).mapM Sight.analyze =
      sights renew <$> (do
        let (ks, scope) ← Analysis.inside scope (analyzeAll false ks)
        return (mk { l with form := .block kind scope } ks).markAnalyzed) := by
  have hinside : Analysis.inside scope (pure ks) = pure (ks, scope) := rfl
  have hmarked : ((mk { l with form := .block kind scope } ks).markAnalyzed).sights renew =
      (mk l ks).sights renew := by
    rw [markAnalyzed, setLabel_mk, sights_block hf]
    exact sights_block rfl
  rw [analyzeAll_settled hk, hinside, pure_bind, map_pure, hmarked, sights_block hf,
    List.mapM_append, Sight.mapM_analyze_inner (Sight.isOuter_enclose _ _ _), pure_bind]
  rfl

theorem bindTo_variable {d : Bool} {b : Option Nat} (hf : l.form = .variable d b) (k : Nat) :
    (mk l ks).bindTo k = mk { l with form := .variable d (some k) } ks := by
  rw [bindTo, form_mk, hf]
  rfl

theorem reference_sights {k : Option Nat} (hf : l.form = .variable false k) :
    ((mk l []).sights renew).mapM Sight.analyze = sights renew <$> (do
      let js ← analyzeAll false []
      return (← (mk l js).analyzeHead renew).markAnalyzed) := by
  have hhead : (mk l []).analyzeHead renew = (mk l []).resolve := by
    rw [analyzeHead, form_mk, hf]
  have hnil : analyzeAll false [] = pure [] := rfl
  rw [sights_variable hf, hnil, pure_bind, hhead]
  funext ss
  rw [List.mapM_cons, Sight.analyze, if_pos (by rfl), Mention.analyze,
    if_neg (by simp [Label.mention])]
  simp only [map_eq_pure_bind, pure_bind, List.mapM_nil, run_bind, resolve_run, label_mk]
  simp only [Label.mention, Mention.find, Mention.name]
  cases ss.lookup l.token.value l.block with
  | none => rfl
  | some j =>
    simp only [bindTo_variable hf, run_pure, markAnalyzed, setLabel_mk, label_mk]
    rw [sights_variable rfl]
    rfl

/-- What comes of the variable of an initializer, and what its mention says of it. -/
theorem introduce_sights (renew : Bool) {v : Label} {d : Bool} {k : Option Nat}
    (hv : v.form = .variable d k) (hl : l.form = .initializer) (js : List Node) :
    (do return js.flatMap (sights false) ++ [.mention (← (l.introduces renew v k).analyze)]) =
      (sights renew <$> do
        return (mk l ((← (mk v []).introduce renew l.block) :: js)).markAnalyzed :
        Analysis (List Sight)) := by
  have hsights : ∀ j, (mk l ((mk v []).bindTo j :: js)).markAnalyzed.sights renew =
      js.flatMap (sights false) ++ [.mention ((l.introduces renew v k).boundTo j)] := by
    intro j
    rw [bindTo_variable hv, markAnalyzed, setLabel_mk, label_mk]
    exact sights_initializer hl rfl
  have hvar : (mk v []).isVariable = true := by rw [isVariable, form_mk, hv]
  funext ss
  simp only [map_eq_pure_bind, run_bind, introduce_run, hvar]
  cases renew with
  | true =>
    have hrole : (l.introduces true v k).role = .renews := rfl
    rw [Mention.analyze, if_neg (by simp [hrole])]
    simp only [Mention.find]
    have hname : (l.introduces true v k).name = v.token.value := rfl
    have hblock : (l.introduces true v k).block = l.block := rfl
    simp only [hname, hblock, label_mk]
    cases ss.lookup v.token.value l.block with
    | none => rfl
    | some j => simp [run_pure, hsights]
  | false =>
    have hrole : (l.introduces false v k).role = .declares := rfl
    rw [Mention.analyze, if_pos hrole]
    cases ss with
    | nil => rfl
    | cons s os =>
      have hname : (l.introduces false v k).name = v.token.value := rfl
      have hserial : (l.introduces false v k).serial = v.serial := rfl
      simp only [Mention.enter, hname, hserial, Analysis.declare, label_mk]
      cases s.declare? v.token.value v.serial with
      | none => rfl
      | some u => simp [run_pure, hsights]

/-- A declared variable is only marked until its initializer is analyzed. -/
theorem analyze_declared {k : Option Nat} (hf : l.form = .variable true k)
    (hl : l.flags = .reordered₀) :
    (mk l []).analyze false = pure (mk l []).markAnalyzed := by
  rw [analyze, if_neg (by rw [hl]; simp [Flags.reordered₀]),
    if_neg (by rw [hl]; simp [Flags.reordered₀])]
  simp only [hf, analyzeAll, pure_bind, analyzeHead, form_mk]

theorem initializer_sights {v : Label} {k : Option Nat} (hl : l.form = .initializer)
    (hv : v.form = .variable true k) (hfl : v.flags = .reordered₀)
    (h : (ks.flatMap (sights false)).mapM Sight.analyze =
      (fun js => js.flatMap (sights false)) <$> analyzeAll false ks) :
    ((mk l (mk v [] :: ks)).sights renew).mapM Sight.analyze = sights renew <$> (do
      let js ← analyzeAll false (mk v [] :: ks)
      return (← (mk l js).analyzeHead renew).markAnalyzed) := by
  have hv' : ({ v with flags := { v.flags with analyzed := true } } : Label).form =
      .variable true k := hv
  have hhead : ∀ js, (mk l ((mk v []).markAnalyzed :: js)).analyzeHead renew =
      do return mk l ((← (mk v []).markAnalyzed.introduce renew l.block) :: js) := by
    intro js
    simp only [analyzeHead, form_mk, hl]
  have hstart : (l.introduces renew v k).isOuter = true := rfl
  rw [sights_initializer hl hv, List.mapM_append, h, analyzeAll, analyze_declared hv hfl]
  simp only [map_eq_pure_bind, bind_assoc, pure_bind, List.mapM_cons, List.mapM_nil, Sight.analyze,
    hstart, if_true, hhead]
  refine bind_congr fun js => (introduce_sights renew hv' hl js).trans ?_
  simp only [map_eq_pure_bind, bind_assoc, pure_bind]
  rfl

/-- A well-formed initializer starts with a variable. -/
theorem initializer_cons (h : Form.Shaped .initializer ((ks.map label).map Label.part))
    (hk : ∀ k ∈ ks, k.label.form.Shaped ((k.kids.map label).map Label.part)) :
    ∃ v rest k, ks = mk v [] :: rest ∧ v.form = .variable true k := by
  obtain ⟨parts, hparts, -⟩ := h
  cases ks with
  | nil => cases hparts
  | cons v rest =>
    obtain ⟨v, vks⟩ := v
    obtain ⟨k, hv⟩ : ∃ k, v.form = .variable true k := by
      have hp := (List.cons.inj hparts).1
      rw [label_mk, Label.part, Form.part.eq_def] at hp
      split at hp <;> cases hp
      exact ⟨_, ‹_›⟩
    have hs := hk (mk v vks) (by simp)
    rw [label_mk, hv] at hs
    obtain rfl : vks = [] := by simpa [Form.Shaped] using hs
    exact ⟨v, rest, k, rfl, hv⟩

/-- Analysis of a tree is analysis of its variables, one after the other. -/
theorem analyze_sights (hn : n.Upper (Label.Ordered .reordered₀)) (hs : n.Sealed) (hc : n.Cast)
    (hr : renew = true → n.form = .initializer) :
    (n.sights renew).mapM Sight.analyze = sights renew <$> n.analyze renew := by
  induction n using induct generalizing renew with
  | h l ks ih =>
    obtain ⟨hl, hk⟩ := upper_mk.mp hn
    have hfl := hl.flags
    have hshape := hl.shaped
    rw [analyze, if_neg (by rw [hfl]; simp [Flags.reordered₀]),
      if_neg (by rw [hfl]; simp [Flags.reordered₀])]
    rw [sealed_mk] at hs
    by_cases hb : l.isBlock = true
    · rw [if_pos hb] at hs
      have hset : ∀ k ∈ ks, k.Settled := by
        intro k hm
        refine settled_of_loose (fun l ks h => ?_) (hk k hm) (hs k hm)
        rw [h.flags]
        rfl
      obtain ⟨kind, scope, hf⟩ := Label.isBlock_iff.mp hb
      rw [hf]
      exact block_sights hf hset
    rw [if_neg hb] at hs
    have hb : l.isBlock = false := by simpa using hb
    have hkids : ∀ k ∈ ks, k.Cast → ∀ b, (b = true → k.form = .initializer) →
        (k.sights b).mapM Sight.analyze = sights b <$> k.analyze b := by
      intro k hm hck b hrb
      exact ih k hm (hn.kids hb k hm) (hs k hm) hck hrb
    cases hf : l.form with
    | declaration renews =>
      have hck := (cast_other hb (by simp [hf]) (by simp [hf])).mp hc
      have hinit : ∀ k ∈ ks, k.form = .initializer := by
        intro k hm
        rw [hf] at hshape
        refine (initializer_iff k).mpr (hshape.2 _ ?_)
        rw [List.map_map]
        exact List.mem_map.mpr ⟨k, hm, rfl⟩
      have hall := analyzeAll_sights fun k hm => hkids k hm (hck k hm) renews fun _ => hinit k hm
      have hmarked : ∀ js, (mk l js).markAnalyzed.sights renew = js.flatMap (sights renews) :=
        fun js => sights_declaration hf
      rw [sights_declaration hf, hall]
      simp only [map_eq_pure_bind, bind_assoc, pure_bind, hmarked]
    | «variable» d k =>
      rw [hf] at hshape
      obtain rfl : ks = [] := by simpa [Form.Shaped] using hshape
      obtain rfl : d = false := (cast_variable hf).mp hc
      exact reference_sights hf
    | initializer =>
      rw [hf] at hshape
      have hupper := hn.kids hb
      obtain ⟨v, rest, k, rfl, hv⟩ := initializer_cons hshape fun k hm => (hupper k hm).label.shaped
      have hck := ((cast_initializer hf hv).mp hc).2
      exact initializer_sights hf hv (hupper (mk v []) (by simp)).label.flags
        (analyzeAll_sights fun k hm => hkids k (by simp [hm]) (hck k hm) false (by simp))
    | block _ _ => simp [Label.isBlock, hf] at hb
    | _ =>
      have hck := (cast_other hb (by simp [hf]) (by simp [hf])).mp hc
      obtain rfl : renew = false := by
        by_contra hne
        have := hr (by simpa using hne)
        rw [form_mk, hf] at this
        cases this
      have hall := analyzeAll_sights fun k hm => hkids k hm (hck k hm) false (by simp)
      have hhead : ∀ js, (mk l js).analyzeHead false = pure (mk l js) := by
        intro js
        simp only [analyzeHead, form_mk, hf]
      have hmarked : ∀ js, (mk l js).markAnalyzed.sights false = js.flatMap (sights false) :=
        fun js => sights_other hb (by simp [hf]) (by simp [hf]) (by simp [hf])
      rw [sights_other hb (by simp [hf]) (by simp [hf]) (by simp [hf]), hall]
      simp only [map_eq_pure_bind, bind_assoc, pure_bind, hhead, hmarked]

/-- A fragment that is set up is well formed by the time it is analyzed. -/
theorem prepare_upper {within : Option Nat} (hn : n.Upper Label.Planted)
    (h : n.prepare within = .ok m) : m.Upper (Label.Ordered .reordered₀) ∧ m.Cast := by
  have hmu := hn.prepare within
  rw [h] at hmu
  refine ⟨hmu, ?_⟩
  obtain ⟨u, hu, h⟩ := except_bind_ok.mp h
  rw [hn.setUp] at hu
  cases hu
  obtain ⟨c, hc, h⟩ := except_bind_ok.mp h
  rw [Cast, casts, fold_reorder castStep_inOrder h]
  exact cast_complete hn hc

theorem analyze_prepared {within : Option Nat} (hn : n.Upper Label.Planted) (hs : n.Sealed)
    (h : n.prepare within = .ok m) :
    (n.sights false).mapM Sight.analyze = sights false <$> m.analyze false := by
  obtain ⟨hu, hc⟩ := prepare_upper hn h
  have hsm : m.Sealed := by
    rw [Sealed, loose, fold_prepare looseStep_sequential h]
    exact hs
  rw [← sights_prepare hn h false]
  exact analyze_sights hu hsm hc (by simp)

theorem cascade_sights {within : Option Nat} {q : Node} {ss us : Scopes}
    (hn : n.Upper Label.Planted) (hs : n.Sealed) (h : n.cascade within ss = (.ok q, us)) :
    (n.sights false).mapM Sight.analyze ss = (.ok (q.sights false), us) := by
  obtain ⟨m, hm, h⟩ := cascade_ok h
  rw [analyze_prepared hn hs hm, map_eq_pure_bind, run_bind, h]
  rfl

/-- Before analysis nothing fails over a name. -/
theorem Upper.stage_of_prepare {within : Option Nat} {f : Failure} (hn : n.Upper Label.Planted)
    (h : n.prepare within = .error f) : f.cause.stage ≠ .scope := by
  have hp := hn.prepare within
  rw [h] at hp
  have hmem : f.cause.stage ∈ [Cause.Stage.shape, .precedence] := hp
  intro hf
  simp [hf] at hmem

end Node

/-! What analysis makes of each variable. -/

namespace Sight

variable {x y : Sight} {xs ys : List Sight} {s : Scope} {os ss : Scopes} {f : Failure}

/-- The keys that the variables outside all blocks declare. -/
def named (xs : List Sight) : List Key := (xs.filterMap declared?).map Declared.key

/-- The sight without what analysis adds to it. -/
def blank : Sight → Sight
  | mention m =>
    if m.isOuter then mention { m with binding := none, analyzed := false } else mention m
  | s => s

/-- What analysis makes of a sight with `s` as the innermost scope. -/
inductive Taken (os : Scopes) (s : Scope) : Sight → Sight → Prop where
  | inner {x : Sight} (h : x.isOuter = false) : Taken os s x x
  | found {m : Mention} {k : Nat} (ho : m.isOuter = true) (hr : m.role ≠ .declares)
      (h : Scopes.lookup m.name m.block (s :: os) = some k) :
      Taken os s (mention m) (mention (m.boundTo k))
  | entered {m : Mention} (ho : m.isOuter = true) (hr : m.role = .declares)
      (h : s.declares m.name = false) : Taken os s (mention m) (mention (m.boundTo os.length))

/-- Why analysis does not get past a sight. -/
inductive Stuck (os : Scopes) (s : Scope) : Sight → Failure → Prop where
  | missing {m : Mention} (ho : m.isOuter = true) (hr : m.role ≠ .declares)
      (h : Scopes.lookup m.name m.block (s :: os) = none) :
      Stuck os s (mention m) (m.failure m.missing)
  | conflict {m : Mention} (ho : m.isOuter = true) (hr : m.role = .declares)
      (h : s.declares m.name = true) :
      Stuck os s (mention m)
        (m.failure (.nameConflict (Scopes.depth (some s.self) (s :: os)) m.name))

theorem named_append (xs ys : List Sight) : named (xs ++ ys) = named xs ++ named ys := by
  simp [named]

theorem Taken.blank (h : Taken os s x y) : y.blank = x.blank := by
  cases h with
  | inner _ => rfl
  | found ho _ _ => simp [Sight.blank, Mention.boundTo, Mention.isOuter] at ho ⊢; simp [ho]
  | entered ho _ _ => simp [Sight.blank, Mention.boundTo, Mention.isOuter] at ho ⊢; simp [ho]

theorem declared?_blank (x : Sight) : x.blank.declared? = x.declared? := by
  cases x with
  | mention m =>
    rw [Sight.blank]
    split
    · next ho => simp [declared?, Mention.isOuter, Mention.key] at ho ⊢
    · rfl
  | scope _ _ => rfl

theorem declared_of_blank (h : ys.map blank = xs.map blank) :
    ys.filterMap declared? = xs.filterMap declared? := by
  have hb : ∀ zs : List Sight, zs.filterMap declared? = (zs.map blank).filterMap declared? := by
    intro zs
    rw [List.filterMap_map]
    exact List.filterMap_congr fun x _ => (declared?_blank x).symm
  rw [hb, h, ← hb]

theorem named_inner (h : x.isOuter = false) : named [x] = [] := by
  simp [named, declared?_inner h]

theorem named_outer {m : Mention} (ho : m.isOuter = true) :
    named [mention m] = if m.role = .declares then [m.key] else [] := by
  by_cases hr : m.role = .declares <;> simp [named, declared?, ho, hr]

/-- A sight is taken, or analysis ends there. -/
theorem analyze_cases (x : Sight) (s : Scope) (os : Scopes) :
    (∃ y, x.analyze (s :: os) = (.ok y, s.extend (named [x]) :: os) ∧ Taken os s x y) ∨
      ∃ f, x.analyze (s :: os) = (.error f, s :: os) ∧ Stuck os s x f := by
  by_cases ho : x.isOuter = false
  · refine Or.inl ⟨x, ?_, .inner ho⟩
    rw [named_inner ho, Scope.extend_nil]
    cases x with
    | mention m => rw [analyze, if_neg (by simpa [isOuter] using ho), run_pure]
    | scope _ _ => rfl
  · cases x with
    | scope _ _ => exact (ho rfl).elim
    | mention m =>
      have ho : m.isOuter = true := by simpa [isOuter] using ho
      rw [named_outer ho, analyze, if_pos ho, map_eq_pure_bind, run_bind, Mention.analyze]
      by_cases hr : m.role = .declares
      · rw [if_pos hr, if_pos hr, Mention.enter, Scope.declare?_eq]
        by_cases hd : s.declares m.name = true
        · rw [if_pos hd]
          exact Or.inr ⟨_, rfl, .conflict ho hr hd⟩
        · rw [if_neg hd]
          exact Or.inl ⟨_, rfl, .entered ho hr (by simpa using hd)⟩
      · rw [if_neg hr, if_neg hr, Mention.find, Scope.extend_nil]
        cases hk : Scopes.lookup m.name m.block (s :: os) with
        | none => exact Or.inr ⟨_, rfl, .missing ho hr hk⟩
        | some k => exact Or.inl ⟨_, rfl, .found ho hr hk⟩

theorem mapM_analyze_cons (h : (x :: xs).mapM analyze (s :: os) = (.ok ys, ss)) :
    ∃ y zs, Taken os s x y ∧ xs.mapM analyze (s.extend (named [x]) :: os) = (.ok zs, ss) ∧
      ys = y :: zs := by
  rw [List.mapM_cons] at h
  obtain ⟨y, zs, t, hy, hz, rfl⟩ := run_cons_ok.mp h
  rcases analyze_cases x s os with ⟨y', hy', ht⟩ | ⟨f, hf, -⟩
  · rw [hy] at hy'
    cases hy'
    exact ⟨y, zs, ht, hz, rfl⟩
  · rw [hy] at hf
    cases hf

/-- A run of analysis takes each sight with what those before it have declared. -/
theorem mapM_analyze_ok (h : xs.mapM analyze (s :: os) = (.ok ys, ss)) :
    ss = s.extend (named xs) :: os ∧ ys.map blank = xs.map blank ∧
      ∀ y ∈ ys, ∃ before x after, xs = before ++ x :: after ∧
        Taken os (s.extend (named before)) x y := by
  induction xs generalizing ys s with
  | nil =>
    cases h
    simp [named]
  | cons x xs ih =>
    obtain ⟨y, zs, ht, hz, rfl⟩ := mapM_analyze_cons h
    obtain ⟨hs, hb, hall⟩ := ih hz
    refine ⟨?_, ?_, ?_⟩
    · rw [hs, Scope.extend_extend, ← named_append, List.singleton_append]
    · rw [List.map_cons, List.map_cons, ht.blank, hb]
    · intro z hm
      rcases List.mem_cons.mp hm with rfl | hm
      · refine ⟨[], x, xs, rfl, ?_⟩
        rw [show named [] = [] from rfl, Scope.extend_nil]
        exact ht
      · obtain ⟨before, w, after, rfl, hw⟩ := hall z hm
        refine ⟨x :: before, w, after, rfl, ?_⟩
        rw [Scope.extend_extend, ← named_append, List.singleton_append] at hw
        exact hw

theorem mapM_analyze_distinct (h : xs.mapM analyze (s :: os) = (.ok ys, ss)) (hs : s.Distinct) :
    (s.extend (named xs)).Distinct := by
  induction xs generalizing ys s ss with
  | nil => rwa [show named [] = [] from rfl, Scope.extend_nil]
  | cons x xs ih =>
    obtain ⟨y, zs, ht, hz, -⟩ := mapM_analyze_cons h
    rw [← List.singleton_append, named_append, ← Scope.extend_extend]
    refine ih hz ?_
    cases ht with
    | inner hi => rwa [named_inner hi, Scope.extend_nil]
    | found ho hr _ => rwa [named_outer ho, if_neg hr, Scope.extend_nil]
    | entered ho hr hd =>
      rw [named_outer ho, if_pos hr]
      exact hs.extend hd

theorem Stuck.analyze (h : Stuck os s x f) : x.analyze (s :: os) = (.error f, s :: os) := by
  cases h with
  | missing ho hr h =>
    rw [Sight.analyze, if_pos ho, map_eq_pure_bind, run_bind, Mention.analyze, if_neg hr,
      Mention.find, h]
  | conflict ho hr h =>
    rw [Sight.analyze, if_pos ho, map_eq_pure_bind, run_bind, Mention.analyze, if_pos hr,
      Mention.enter, Scope.declare?_eq, if_pos h]

/-- A run of analysis ends at the first sight that it does not get past. -/
theorem mapM_analyze_error (h : xs.mapM analyze (s :: os) = (.error f, ss)) :
    ∃ before x after ys, xs = before ++ x :: after ∧
      before.mapM analyze (s :: os) = (.ok ys, s.extend (named before) :: os) ∧
      Stuck os (s.extend (named before)) x f := by
  induction xs generalizing s with
  | nil => cases h
  | cons x xs ih =>
    rw [List.mapM_cons] at h
    rcases analyze_cases x s os with ⟨y, hy, -⟩ | ⟨e, he, ht⟩
    · rw [run_bind, hy] at h
      dsimp only at h
      rw [run_bind] at h
      split at h
      · cases h
      · next g t hg =>
        cases h
        obtain ⟨before, w, after, ys, rfl, hrun, hw⟩ := ih hg
        rw [Scope.extend_extend, ← named_append, List.singleton_append] at hrun hw
        refine ⟨x :: before, w, after, y :: ys, rfl, ?_, hw⟩
        rw [List.mapM_cons, run_bind, hy]
        dsimp only
        rw [run_bind, hrun]
        rfl
    · rw [run_bind, he] at h
      cases h
      refine ⟨[], x, xs, [], rfl, ?_, ?_⟩
      · rw [show named [] = [] from rfl, Scope.extend_nil]
        rfl
      · rw [show named [] = [] from rfl, Scope.extend_nil]
        exact ht

theorem mapM_analyze_stuck {before after : List Sight}
    (hb : before.mapM analyze (s :: os) = (.ok ys, s.extend (named before) :: os))
    (hx : Stuck os (s.extend (named before)) x f) :
    (before ++ x :: after).mapM analyze (s :: os) = (.error f, s.extend (named before) :: os) := by
  rw [List.mapM_append, run_bind, hb]
  dsimp only
  rw [List.mapM_cons, run_bind, run_bind, hx.analyze]

end Sight

end TokenShell
