import TokenShell.Proofs.Framing
import TokenShell.Proofs.Lineage

/-! Which declaration a variable uses when it is evaluated. A name is analyzed once and evaluated
later, and a failed evaluation in between may have discarded what it was bound to. -/
namespace TokenShell

/-- The declaration of a name among those of a scope. -/
def declarer? (x : Bytes) (keys : List Key) : Option Nat := (keys.find? (·.1 == x)).map Prod.snd

theorem Scope.declarer?_keys (s : Scope) (x : Bytes) :
    declarer? x s.keys = (s.find? x).map Scope.Entry.declarer := by
  rw [declarer?, find?, Option.map_map]
  rfl

theorem mem_of_declarer? {x : Bytes} {keys : List Key} {e : Nat} (h : declarer? x keys = some e) :
    (x, e) ∈ keys := by
  obtain ⟨⟨y, e'⟩, hfind, rfl⟩ := Option.map_eq_some_iff.mp h
  obtain rfl : y = x := by simpa using List.find?_some hfind
  exact List.mem_of_find?_eq_some hfind

theorem exists_declarer? {x : Bytes} {e : Nat} {keys : List Key} (he : (x, e) ∈ keys) :
    ∃ e', keys.find? (·.1 == x) = some (x, e') := by
  have hsome : (keys.find? (·.1 == x)).isSome = true := List.find?_isSome.mpr ⟨(x, e), he, by simp⟩
  obtain ⟨⟨y, e'⟩, hfind⟩ := Option.isSome_iff_exists.mp hsome
  obtain rfl : y = x := by simpa using List.find?_some hfind
  exact ⟨e', hfind⟩

/-- More declarations do not hide one that is there. -/
theorem declarer?_of_prefix {x : Bytes} {e : Nat} {keys keys' : List Key} (h : keys <+: keys')
    (he : (x, e) ∈ keys) : declarer? x keys' = declarer? x keys := by
  obtain ⟨more, rfl⟩ := h
  obtain ⟨e', hfind⟩ := exists_declarer? he
  rw [declarer?, List.find?_append, declarer?, hfind]
  rfl

theorem declarer?_of_nodup {x : Bytes} {e : Nat} {keys : List Key} (h : (keys.map Prod.fst).Nodup)
    (he : (x, e) ∈ keys) : declarer? x keys = some e := by
  obtain ⟨e', hfind⟩ := exists_declarer? he
  have hsame : (x, e') = (x, e) :=
    List.inj_on_of_nodup_map h (List.mem_of_find?_eq_some hfind) he rfl
  rw [declarer?, hfind, hsame]
  rfl

theorem Run.clock_le_step {σ : Type} {d : Option (Dispatcher σ)} (r : Run σ) (c : Call) :
    r.tree.clock ≤ (r.step d c).tree.clock := by
  cases c with
  | insert tok =>
    have hclock := r.tree.clock_insert tok
    simp only [step]
    omega
  | reset => exact Nat.le_refl _
  | evaluate _ _ => exact Nat.le_refl _

namespace Mention

/-- The declaration that a variable stands for: that of its name in the scope it is bound to. The
scopes around the tree that it stands in are given. -/
def targetIn (ctx : List (List Key)) (m : Mention) : Option Nat :=
  m.binding.bind fun k => (m.scopes ++ ctx).reverse[k]?.bind (declarer? m.name)

/-- The declaration that a variable of a whole tree stands for. -/
def target (m : Mention) : Option Nat := m.targetIn []

theorem targetIn_global (m : Mention) (g : List Key) (h : m.binding = some 0) :
    m.targetIn [g] = declarer? m.name g := by
  simp [targetIn, h]

theorem targetIn_block (m : Mention) (g : List Key) {k : Nat} (h : m.binding = some (k + 1)) :
    m.targetIn [g] = m.scopes.reverse[k]?.bind (declarer? m.name) := by
  simp [targetIn, h]

theorem target_within (m : Mention) (f : Frame) : (m.within f).target = m.targetIn [f.keys] := by
  simp [target, targetIn, scopes, within, name]

/-- In a later state of the tree a variable is bound as it was, and stands for the declaration that
it stood for or for none. -/
structure Lasts (m : Mention) (t : Tree) : Prop where
  bounded : m.serial ≤ t.clock
  same : ∀ y, .mention y ∈ t.sights → y.serial = m.serial →
    y.analyzed = true ∧ y.token = m.token ∧ y.binding = m.binding ∧
      (y.targetIn [t.globals.keys] = m.target ∨ y.targetIn [t.globals.keys] = none)

theorem lasts_of_mem {m : Mention} {t : Tree} (h : t.Numbered) (hm : m ∈ t.mentions)
    (ha : m.analyzed = true) : m.Lasts t := by
  obtain ⟨z, f, hz, hf, rfl⟩ := Sight.mention_of_enclose (Tree.mem_mentions.mp hm)
  rw [← List.flatMap_def] at hz
  have hle : z.serial ≤ t.clock := h.serial_le hz
  refine ⟨hle, fun y hy hs => ?_⟩
  obtain rfl : y = z := h.eq_of_serial hy hz hs
  refine ⟨ha, rfl, rfl, Or.inl ?_⟩
  rw [target_within, hf]

variable {σ : Type} {m : Mention}

/-- A call that declares the name of a global variable anew might change what it stands for. No
other call does. -/
theorem Lasts.step {r : Run σ} {d : Option (Dispatcher σ)} {c : Call} (hr : r.tree.Reachable)
    (hb : ∀ x, .mention x ∈ r.tree.sights → x.analyzed = true → x.Anchored [])
    (hnew : m.binding = some 0 → ∀ e, (m.name, e) ∈ (r.step d c).tree.globals.keys →
      (m.name, e) ∈ r.tree.globals.keys)
    (h : m.Lasts r.tree) : m.Lasts (r.step d c).tree := by
  obtain ⟨new, hfresh, hf⟩ := Run.follows_step hr d c
  refine ⟨h.bounded.trans (Run.clock_le_step r c), fun y hy hs => ?_⟩
  obtain ⟨x, hx, hlead⟩ := hf y hy
  have hxs : x.serial = m.serial := hlead.serial.symm.trans hs
  have hx : .mention x ∈ r.tree.sights := by
    rcases List.mem_append.mp hx with hx | hx
    · exact hx
    · have hlate := (hfresh x hx).1
      have hbound := h.bounded
      omega
  obtain ⟨hxa, hxt, hxb, htarget⟩ := h.same x hx hxs
  obtain ⟨hya, hyt, hyb, hscopes⟩ := hlead.keeps hxa
  refine ⟨hya, hyt.trans hxt, hyb.trans hxb, ?_⟩
  have hyname : y.name = m.name := congrArg Token.value (hyt.trans hxt)
  have hxname : x.name = m.name := congrArg Token.value hxt
  obtain ⟨j, hj, hanchored⟩ := hb x hx hxa
  cases j with
  | zero =>
    rw [x.targetIn_global _ hj, hxname] at htarget
    rw [y.targetIn_global _ (hyb.trans hj), hyname]
    cases he : declarer? m.name (r.step d c).tree.globals.keys with
    | none => exact Or.inr rfl
    | some e =>
      -- The declaration that is found was there before, and it was the only one of its name.
      have hmem := hnew (hxb.symm.trans hj) e (mem_of_declarer? he)
      rw [declarer?_of_nodup hr.kept.root.distinct hmem] at htarget
      exact Or.inl (htarget.resolve_right (by simp))
  | succ k =>
    obtain ⟨keys, hkeys, e, he⟩ := hanchored k rfl
    rw [List.append_nil] at hkeys
    obtain ⟨keys', hkeys', hmore⟩ := hscopes.level hkeys
    rw [x.targetIn_block _ hj, hkeys, hxname] at htarget
    rw [y.targetIn_block _ (hyb.trans hj), hkeys', hyname]
    rw [hxname] at he
    simpa only [Option.bind_some, declarer?_of_prefix hmore he] using htarget

theorem Lasts.run {d : Option (Dispatcher σ)} {w : σ} {pre post : List Call}
    (h : m.Lasts (Run.of d w pre).tree)
    (hnew : m.binding = some 0 → ∀ mid c rest, post = mid ++ c :: rest →
      ∀ e, (m.name, e) ∈ (Run.of d w (pre ++ mid ++ [c])).tree.globals.keys →
        (m.name, e) ∈ (Run.of d w (pre ++ mid)).tree.globals.keys) :
    m.Lasts (Run.of d w (pre ++ post)).tree := by
  induction post using List.reverseRecOn with
  | nil => rwa [List.append_nil]
  | append_singleton post c ih =>
    have hpost := ih fun hb mid c' rest he => hnew hb mid c' (rest ++ [c]) (by simp [he])
    rw [← List.append_assoc, Run.of_concat]
    refine hpost.step (Run.reachable d w _) (fun x hx => Run.anchored d w _ hx) fun hb => ?_
    rw [← Run.of_concat]
    exact hnew hb post c [] rfl

end Mention

/-! The rules that are applied when a tree is evaluated. -/

/-- The rule of a node is applied to its evaluated children in a state of the machine. -/
structure Visit (σ : Type) where
  label : Label
  kids : List Node
  machine : Machine σ

section Visits

variable {σ : Type}

/-- The variable whose cell a rule uses: a reference is one itself, and the first child of an
initializer is one. -/
def Visit.operand? (x : Visit σ) : Option Label :=
  match x.label.form, x.kids with
  | .variable false _, _ => some x.label
  | .initializer, j :: _ => if j.isVariable then some j.label else none
  | _, _ => none

/-- What comes out of a rule. -/
def Visit.outcome (x : Visit σ) (d : Option (Dispatcher σ)) : Except Failure Label × Machine σ :=
  x.label.evaluate d x.kids x.machine

namespace Node

mutual

/-- The rules that evaluating a tree comes to, in their order. That of a block, which uses no
variable, is left out. -/
def visits (d : Option (Dispatcher σ)) : Node → Machine σ → List (Visit σ)
  | mk l ks, m =>
    if l.flags.evaluated || !l.flags.analyzed then []
    else
      visitsAll d ks { m with scopes := (mk l ks).scope?.toList ++ m.scopes } ++
        if l.isBlock then []
        else
          match evaluateAll d ks m with
          | (.ok js, m) => [⟨l, js, m⟩]
          | (.error _, _) => []

def visitsAll (d : Option (Dispatcher σ)) : List Node → Machine σ → List (Visit σ)
  | [], _ => []
  | n :: ns, m =>
    n.visits d m ++
      match n.evaluate d m with
      | (.ok _, m) => visitsAll d ns m
      | (.error _, _) => []

end

end Node

/-- The rules that evaluating fragments comes to, one fragment after the other. -/
def Progress.visits (d : Option (Dispatcher σ)) (interrupts : List Bool) (m : Machine σ) :
    List Node → List (Visit σ)
  | [] => []
  | n :: ns =>
    if n.flags.evaluated then visits d interrupts m ns
    else if !n.isReady || m.cancelled || interrupts.headD false then []
    else
      n.visits d m ++
        match n.evaluate d m with
        | (.ok _, m) => visits d interrupts.tail m ns
        | (.error _, _) => []

/-- The rules that evaluating a tree comes to. -/
def Tree.visits (t : Tree) (d : Option (Dispatcher σ)) (w : σ) (cancelled : Bool)
    (interrupts : List Bool) : List (Visit σ) :=
  Progress.visits d interrupts { scopes := [t.globals], world := w, cancelled, outputs := [] }
    t.fragments

variable {d : Option (Dispatcher σ)} {m m' : Machine σ} {n : Node} {l v : Label} {ks js : List Node}
  {x : Visit σ} {f : Failure}

namespace Node

theorem mem_visitsAll (h : x ∈ visitsAll d ks m) : ∃ before k after is m',
    ks = before ++ k :: after ∧ evaluateAll d before m = (.ok is, m') ∧ x ∈ k.visits d m' := by
  induction ks generalizing m with
  | nil => cases h
  | cons k ks ih =>
    rw [visitsAll] at h
    rcases List.mem_append.mp h with h | h
    · exact ⟨[], k, ks, [], m, rfl, rfl, h⟩
    · split at h
      · next j m₁ hj =>
        obtain ⟨before, i, after, is, m', rfl, hbefore, hi⟩ := ih h
        refine ⟨k :: before, i, after, j :: is, m', rfl, ?_, hi⟩
        rw [evaluateAll]
        exact run_bind_ok.mpr ⟨j, m₁, hj, run_bind_ok.mpr ⟨is, m', hbefore, rfl⟩⟩
      · cases h

/-- A rule is applied at a node itself or below it. -/
theorem mem_visits (h : x ∈ (mk l ks).visits d m) :
    (l.flags.evaluated = false ∧ l.flags.analyzed = true) ∧
      (l.isBlock = false ∧ x.label = l ∧ evaluateAll d ks m = (.ok x.kids, x.machine) ∨
        ∃ before k after is m', ks = before ++ k :: after ∧
          evaluateAll d before { m with scopes := (mk l ks).scope?.toList ++ m.scopes } =
            (.ok is, m') ∧ x ∈ k.visits d m') := by
  rw [visits] at h
  split at h
  · cases h
  · next hflags =>
    refine ⟨by simpa using hflags, ?_⟩
    rcases List.mem_append.mp h with h | h
    · exact Or.inr (mem_visitsAll h)
    · split at h
      · cases h
      · next hb =>
        split at h
        · next js m' hjs =>
          obtain rfl := List.mem_singleton.mp h
          exact Or.inl ⟨by simpa using hb, rfl, hjs⟩
        · cases h

end Node

theorem Label.cores_outline (l : Label) : l.outline.cores = l.cores := by
  unfold cores outline
  cases l.form <;> rfl

theorem Visit.operand?_cases (h : x.operand? = some v) :
    (v = x.label ∧ ∃ b, x.label.form = .variable false b) ∨
      x.label.form = .initializer ∧ ∃ j rest, x.kids = j :: rest ∧ v = j.label ∧
        ∃ c b, j.label.form = .variable c b := by
  unfold operand? at h
  split at h
  · next b hl =>
    cases h
    exact Or.inl ⟨rfl, b, hl⟩
  · next j rest hl hk =>
    split at h
    · next hj =>
      cases h
      unfold Node.isVariable at hj
      split at hj
      · next c b hf => exact Or.inr ⟨hl, j, rest, hk, rfl, c, b, hf⟩
      · cases hj
    · cases h
  · cases h

/-- The scopes in which the variable of a rule is looked up are those around it in the tree. -/
theorem Node.sight_of_visits (h : x ∈ n.visits d m) (hv : x.operand? = some v) :
    ∃ z c, .mention z ∈ n.sights false ∧ z.serial = v.serial ∧ z.token = v.token ∧
      v.form = .variable c z.binding ∧
      x.machine.scopes.map Scope.keys = z.scopes ++ m.scopes.map Scope.keys := by
  have hcores : ∃ c b, v.form = .variable c b ∧ v.cores = [(v.mention b).core] := by
    rcases Visit.operand?_cases hv with ⟨rfl, b, hf⟩ | ⟨-, j, rest, -, rfl, c, b, hf⟩
    · exact ⟨false, b, hf, by rw [Label.cores, hf]⟩
    · exact ⟨c, b, hf, by rw [Label.cores, hf]⟩
  obtain ⟨c, b, hf, hcores⟩ := hcores
  suffices hcore : ∃ z, .mention z ∈ n.sights false ∧ z.token = v.token ∧ z.serial = v.serial ∧
      z.binding = b ∧ x.machine.scopes.map Scope.keys = z.scopes ++ m.scopes.map Scope.keys by
    obtain ⟨z, hz, ht, hs, hb, hscopes⟩ := hcore
    exact ⟨z, c, hz, hs, ht, hb ▸ hf, hscopes⟩
  induction n using induct generalizing m with
  | h l ks ih =>
    obtain ⟨-, ⟨hb, rfl, hks⟩ | ⟨before, k, after, is, m', rfl, h, hx⟩⟩ := mem_visits h
    · have hkeys := keys_evaluateAll hks
      obtain ⟨-, _, -, -, -, hall⟩ := dispatches_all d ks m
      rw [hks] at hall
      have houtline : x.kids.map outline = ks.map outline := (hall x.kids rfl).2
      rcases Visit.operand?_cases hv with ⟨rfl, -⟩ | ⟨-, j, rest, hkids, rfl, -⟩
      · obtain ⟨z, hz, hc⟩ := mem_of_cores ks false (hcores ▸ List.mem_singleton_self _)
        refine ⟨z, hz, congrArg Mention.token hc, congrArg Mention.serial hc,
          congrArg Mention.binding hc, ?_⟩
        rw [hkeys, show z.scopes = [] from congrArg Mention.scopes hc, List.nil_append]
      · -- The first child was the same variable before it was evaluated.
        rw [hkids] at houtline
        cases ks with
        | nil => cases houtline
        | cons k ks =>
          have hlabel : j.label.outline = k.label.outline := by
            have hhead := congrArg label (List.cons.inj houtline).1
            rwa [label_outline, label_outline] at hhead
          have hk : (j.label.mention b).core ∈ k.label.cores := by
            rw [← Label.cores_outline, ← hlabel, Label.cores_outline, hcores]
            exact List.mem_singleton_self _
          obtain ⟨kl, kks⟩ := k
          obtain ⟨z, hz, hc⟩ := mem_of_cores kks false hk
          have hmem : .mention z ∈ (mk kl kks :: ks).flatMap (sights false) :=
            List.mem_flatMap.mpr ⟨mk kl kks, List.mem_cons_self, hz⟩
          obtain ⟨y, hy, hlift⟩ := exists_lifted x.label false hmem
          refine ⟨y, hy, hlift.token.trans (congrArg Mention.token hc),
            hlift.serial.trans (congrArg Mention.serial hc),
            hlift.binding.trans (congrArg Mention.binding hc), ?_⟩
          rw [hkeys, hlift.scopes, show z.scopes = [] from congrArg Mention.scopes hc,
            Label.scopeKeys_of_not_block hb, List.append_nil, List.nil_append]
    · obtain ⟨z, hz, ht, hs, hb, hscopes⟩ := ih k (by simp) hx
      have hkeys := keys_evaluateAll h
      rw [List.map_append, keys_scope?] at hkeys
      have hmem : .mention z ∈ (before ++ k :: after).flatMap (sights false) := by simp [hz]
      obtain ⟨y, hy, hlift⟩ := exists_lifted l false hmem
      refine ⟨y, hy, hlift.token.trans ht, hlift.serial.trans hs, hlift.binding.trans hb, ?_⟩
      rw [hscopes, hkeys, hlift.scopes, List.append_assoc]
      rfl

theorem Progress.sight_of_visits {is : List Bool} {ns : List Node} (h : x ∈ visits d is m ns)
    (hv : x.operand? = some v) :
    ∃ z c, .mention z ∈ ns.flatMap (Node.sights false) ∧ z.serial = v.serial ∧ z.token = v.token ∧
      v.form = .variable c z.binding ∧
      x.machine.scopes.map Scope.keys = z.scopes ++ m.scopes.map Scope.keys := by
  induction ns generalizing is m with
  | nil => cases h
  | cons n ns ih =>
    rw [visits] at h
    split at h
    · obtain ⟨z, c, hz, h⟩ := ih h
      exact ⟨z, c, List.mem_append_right _ hz, h⟩
    · split at h
      · cases h
      · rcases List.mem_append.mp h with h | h
        · obtain ⟨z, c, hz, h⟩ := Node.sight_of_visits h hv
          exact ⟨z, c, List.mem_append_left _ hz, h⟩
        · split at h
          · next n' m' hn =>
            obtain ⟨z, c, hz, hs, ht, hb, hscopes⟩ := ih h
            exact ⟨z, c, List.mem_append_right _ hz, hs, ht, hb,
              hscopes.trans (Node.keys_evaluate hn ▸ rfl)⟩
          · cases h

theorem Node.evaluateAll_error {before is : List Node} (after : List Node) {k : Node}
    (h : evaluateAll d before m = (.ok is, m')) (hk : (k.evaluate d m').1 = .error f) :
    (evaluateAll d (before ++ k :: after) m).1 = .error f := by
  induction before generalizing is m with
  | nil =>
    cases h
    rw [List.nil_append, evaluateAll]
    exact run_bind_error _ hk
  | cons n before ih =>
    obtain ⟨j, js, t, hj, hjs, rfl⟩ := evaluateAll_cons_ok.mp h
    rw [List.cons_append, evaluateAll, run_bind, hj]
    exact run_bind_error _ (ih hjs)

/-- Where a rule fails, so does the evaluation that comes to it. -/
theorem Node.error_of_visits (h : x ∈ n.visits d m) (hf : (x.outcome d).1 = .error f) :
    (n.evaluate d m).1 = .error f := by
  induction n using induct generalizing m with
  | h l ks ih =>
    obtain ⟨⟨he, ha⟩, hcase⟩ := mem_visits h
    rcases evaluate_cases d l ks with
      ⟨he', -⟩ | ⟨-, ha', -⟩ | ⟨-, kind, scope, hl, hr⟩ | ⟨-, hb, hr⟩
    · rw [he] at he'
      cases he'
    · rw [ha] at ha'
      cases ha'
    · have hblock : l.isBlock = true := Label.isBlock_iff.mpr ⟨kind, scope, hl⟩
      rcases hcase with ⟨hb, -⟩ | ⟨before, k, after, is, m', rfl, h, hx⟩
      · rw [hblock] at hb
        cases hb
      · have hall := evaluateAll_error after h (ih k (by simp) hx)
        have hscope : (mk l (before ++ k :: after)).scope? = some scope := by
          rw [scope?, form_mk, hl]
        rw [hscope, show (some scope).toList ++ m.scopes = scope :: m.scopes from rfl] at hall
        rw [hr]
        refine run_bind_error _ ?_
        rw [Evaluation.inside]
        split
        · next hok =>
          rw [hok] at hall
          cases hall
        · next hfail =>
          rw [hfail] at hall
          cases hall
          rfl
    · rcases hcase with ⟨-, rfl, hks⟩ | ⟨before, k, after, is, m', rfl, h, hx⟩
      · rw [hr, run_bind, hks]
        exact run_bind_error _ hf
      · have hall := evaluateAll_error after h (ih k (by simp) hx)
        have hscope : (mk l (before ++ k :: after)).scope? = none := by
          rw [scope?, form_mk]
          split
          · next kind s hl => exact (hb kind s hl).elim
          · rfl
        rw [hscope] at hall
        rw [hr]
        exact run_bind_error _ hall

theorem Progress.error_of_visits {is : List Bool} {ns : List Node} (h : x ∈ visits d is m ns)
    (hf : (x.outcome d).1 = .error f) : (Progress.of d is m ns).stop = some (.failed f) := by
  induction ns generalizing is m with
  | nil => cases h
  | cons n ns ih =>
    rw [visits] at h
    split at h
    · next he =>
      rw [of, if_pos he]
      exact ih h
    · next he =>
      split at h
      · cases h
      · next hgo =>
        simp only [Bool.or_eq_true, not_or, Bool.not_eq_true, Bool.not_eq_false'] at hgo
        obtain ⟨⟨hr, hc⟩, hi⟩ := hgo
        rw [of, if_neg he, if_neg (by simp [hr]), if_neg (by simp only [hc, hi]; simp)]
        rcases List.mem_append.mp h with h | h
        · have hn := Node.error_of_visits h hf
          split
          · next g m₁ he =>
            rw [he] at hn
            cases hn
            rfl
          · next n₁ m₁ he =>
            rw [he] at hn
            cases hn
        · split at h
          · next n' m' hn =>
            rw [hn]
            exact ih h
          · cases h

/-- The entry of a name in the scope at a level. -/
def Machine.slot? (m : Machine σ) (k : Nat) (x : Bytes) : Option Scope.Entry :=
  (m.scopes.level? k).bind (·.find? x)

/-- A rule uses one cell and no other: that of a reference yields the value in it, that of an
initializer fills it with the value of the expression. -/
inductive Visit.Uses (x : Visit σ) (k : Nat) (e : Scope.Entry) :
    Except Failure Label × Machine σ → Prop where
  | reads (hl : x.label.form = .variable false (some k)) :
      Uses x k e (.ok (x.label.withResult (e.cell.getD .nil)), x.machine)
  | fills {m : Machine σ} {v : Value} (hl : x.label.form = .initializer)
      (hv : v = (x.kids[1]?.map Node.result).getD .nil)
      (hfilled : m.slot? k e.name = some { e with cell := some v })
      (hothers : ∀ j y, (j, y) ≠ (k, e.name) → m.slot? j y = x.machine.slot? j y) :
      Uses x k e (.ok (x.label.withResult v), m)

theorem Scope.find?_name {s : Scope} {x : Bytes} {e : Scope.Entry} (h : s.find? x = some e) :
    e.name = x := by
  obtain ⟨k, hk, rfl⟩ := Option.map_eq_some_iff.mp h
  simpa using List.find?_some hk

theorem Scope.cell?_bind (s : Scope) (x y : Bytes) (v : Value) :
    (s.bind x v).cell? y = if x = y then some v else s.cell? y := by
  rw [cell?, bind, List.find?_cons]
  by_cases hx : x = y
  · simp [hx]
  · have hxy : (x == y) = false := by simpa using hx
    have hcells : (s.cells.filter (·.1 ≠ x)).find? (·.1 == y) = s.cells.find? (·.1 == y) := by
      rw [List.find?_filter]
      congr 1
      funext c
      by_cases hc : c.1 = y
      · simp [hc, Ne.symm hx]
      · simp [hc]
    rw [if_neg hx, cell?, hxy, hcells]

theorem Scope.find?_bind (s : Scope) (x y : Bytes) (v : Value) :
    (s.bind x v).find? y =
      (s.find? y).map fun e => if x = y then { e with cell := some v } else e := by
  rw [find?, find?, Option.map_map]
  refine Option.map_congr fun k hk => ?_
  obtain rfl : k.1 = y := by simpa using List.find?_some hk
  rw [cell?_bind]
  dsimp only [Function.comp]
  split <;> rfl

theorem Machine.slot?_fill (m : Machine σ) (k : Nat) (x : Bytes) (v : Value) (j : Nat) (y : Bytes) :
    slot? { m with scopes := m.scopes.modifyLevel k (·.bind x v) } j y =
      (m.slot? j y).map fun e => if j = k ∧ x = y then { e with cell := some v } else e := by
  rw [slot?, slot?, Scopes.level?_modifyLevel]
  by_cases hj : j = k
  · rw [if_pos hj]
    cases m.scopes.level? j with
    | none => rfl
    | some s => simp [Scope.find?_bind, hj]
  · rw [if_neg hj]
    simp [hj]

theorem Machine.slot?_name {m : Machine σ} {k : Nat} {x : Bytes} {e : Scope.Entry}
    (h : m.slot? k x = some e) : e.name = x := by
  obtain ⟨s, -, hs⟩ := Option.bind_eq_some_iff.mp h
  exact Scope.find?_name hs

theorem Evaluation.write_eq (m : Machine σ) (k : Nat) (x : Bytes) (v : Value) :
    write k x v m =
      match m.slot? k x with
      | some _ => (.ok true, { m with scopes := m.scopes.modifyLevel k (·.bind x v) })
      | none => (.ok false, m) := by
  rw [write, Machine.slot?]
  cases m.scopes.level? k with
  | none => rfl
  | some s =>
    cases hs : s.find? x <;> simp [Scope.declares, hs]

/-- The rule of a variable or an initializer uses the cell of the name at the level it is bound to,
or fails for want of it. -/
theorem Visit.outcome_cases {c : Bool} {k : Nat} (d : Option (Dispatcher σ))
    (hv : x.operand? = some v) (hf : v.form = .variable c (some k)) :
    (∃ e, x.machine.slot? k v.token.value = some e ∧ x.Uses k e (x.outcome d)) ∨
      (x.machine.slot? k v.token.value = none ∧
        (x.outcome d).1 = v.fail (.noLongerDeclared v.token.value)) := by
  obtain ⟨l, js, m⟩ := x
  unfold outcome
  rcases operand?_cases hv with ⟨rfl, b, hl⟩ | ⟨hl, j, rest, hkids, rfl, -⟩
  · obtain ⟨rfl, rfl⟩ : c = false ∧ b = some k := by
      rw [hl] at hf
      cases hf
      exact ⟨rfl, rfl⟩
    have hl : v.form = .variable false (some k) := hl
    have hread : (Evaluation.read k v.token.value : Evaluation σ _) m =
        (.ok ((m.slot? k v.token.value).map fun e => e.cell.getD .nil), m) := by
      rw [Evaluation.read, Machine.slot?]
      cases m.scopes.level? k <;> rfl
    have hrule : v.evaluate d js = (v.evaluateVariable : Evaluation σ Label) := by
      rw [Label.evaluate, hl]
    dsimp only
    rw [hrule, Label.evaluateVariable, hl]
    dsimp only
    rw [run_bind, hread]
    cases he : m.slot? k v.token.value with
    | none => exact Or.inr ⟨rfl, rfl⟩
    | some e => exact Or.inl ⟨e, rfl, .reads hl⟩
  · have hl : l.form = .initializer := hl
    obtain rfl : js = j :: rest := hkids
    have hf : j.form = .variable c (some k) := hf
    have hrule : l.evaluate d (j :: rest) =
        (l.evaluateInitializer (j :: rest) : Evaluation σ Label) := by
      rw [Label.evaluate, hl]
    dsimp only
    rw [hrule, Label.evaluateInitializer]
    simp only [hf]
    rw [run_bind, Evaluation.write_eq]
    cases he : m.slot? k j.label.token.value with
    | none => exact Or.inr ⟨rfl, rfl⟩
    | some e =>
      have hname : e.name = j.label.token.value := Machine.slot?_name he
      refine Or.inl ⟨e, rfl, .fills hl (by cases rest <;> rfl) ?_ ?_⟩
      · rw [Machine.slot?_fill, hname, he]
        simp [hname]
      · intro i y hne
        have hother : ¬(i = k ∧ j.label.token.value = y) := by
          rintro ⟨rfl, rfl⟩
          exact hne (by rw [hname])
        rw [Machine.slot?_fill]
        simp [hother]

/-- The entry that a rule finds is the declaration that its variable stands for. -/
theorem Machine.declarer_slot? (m : Machine σ) {z : Mention} {ctx : List (List Key)} {k : Nat}
    (hk : z.binding = some k) (hm : m.scopes.map Scope.keys = z.scopes ++ ctx) :
    (m.slot? k z.name).map Scope.Entry.declarer = z.targetIn ctx := by
  rw [slot?, Scopes.level?_eq, Mention.targetIn, hk, Option.bind_some, ← hm, ← List.map_reverse,
    List.getElem?_map]
  cases m.scopes.reverse[k]? with
  | none => rfl
  | some s => exact (s.declarer?_keys z.name).symm

/-- A variable uses the cell of the declaration that it has stood for, or fails since that is gone.
A global name must not have been declared anew meanwhile. -/
theorem Run.variables_keep_declarations (d : Option (Dispatcher σ)) (w : σ) (pre post : List Call)
    {u : Mention} (hu : u ∈ (of d w pre).tree.mentions) (ha : u.analyzed = true)
    (hnew : u.binding = some 0 → ∀ mid c rest, post = mid ++ c :: rest →
      ∀ e, (u.name, e) ∈ (of d w (pre ++ mid ++ [c])).tree.globals.keys →
        (u.name, e) ∈ (of d w (pre ++ mid)).tree.globals.keys)
    (cancelled : Bool) (interrupts : List Bool) {x : Visit σ}
    (hx : x ∈ (of d w (pre ++ post)).tree.visits d (of d w (pre ++ post)).world cancelled
      interrupts)
    {v : Label} (hv : x.operand? = some v) (hs : v.serial = u.serial) :
    ∃ k, u.binding = some k ∧
      ((∃ e, x.machine.slot? k u.name = some e ∧ u.target = some e.declarer ∧
          x.Uses k e (x.outcome d)) ∨
        x.machine.slot? k u.name = none ∧
          ((of d w (pre ++ post)).tree.evaluate d (of d w (pre ++ post)).world cancelled
              interrupts).stop =
            some (.failed { cause := .noLongerDeclared u.name, node := some u.token })) := by
  have hlasts := ((Mention.lasts_of_mem (reachable d w pre).sound.numbered hu ha).run hnew)
  obtain ⟨z, c, hz, hzs, hzt, hf, hscopes⟩ := Progress.sight_of_visits hx hv
  have hz : .mention z ∈ (of d w (pre ++ post)).tree.sights := by
    rw [Tree.sights, Tree.roots, List.flatMap_append]
    exact List.mem_append_left _ hz
  obtain ⟨hza, htoken, hbinding, htarget⟩ := hlasts.same z hz (hzs.trans hs)
  obtain ⟨k, hk, -⟩ := anchored d w (pre ++ post) hz hza
  refine ⟨k, hbinding.symm.trans hk, ?_⟩
  have hname : z.name = u.name := congrArg Token.value htoken
  have hfound := x.machine.declarer_slot? hk hscopes
  have hvalue : v.token.value = u.name := (congrArg Token.value hzt).symm.trans hname
  rw [hk] at hf
  rcases Visit.outcome_cases d hv hf with ⟨e, he, huses⟩ | ⟨hnone, hfail⟩
  · rw [hvalue] at he
    rw [hname, he] at hfound
    refine Or.inl ⟨e, he, ?_, huses⟩
    rcases htarget with htarget | htarget
    · exact htarget.symm.trans hfound.symm
    · cases hfound.trans htarget
  · rw [hvalue] at hnone hfail
    refine Or.inr ⟨hnone, ?_⟩
    have hstop := Progress.error_of_visits hx hfail
    rw [← hzt, htoken] at hstop
    exact hstop

end Visits

/-- A declaration of a name that cannot be evaluated, and an expression that refers to it. -/
def failingDeclaration : List Token :=
  [⟨"(", []⟩, ⟨"new", []⟩, ⟨"(", []⟩, ⟨"init", []⟩, ⟨"ID", "x"⟩, ⟨"(", []⟩, ⟨"exp", []⟩, ⟨"(", []⟩,
    ⟨"SLASH", []⟩, ⟨"INT", "1"⟩, ⟨"INT", "0"⟩, ⟨")", []⟩, ⟨")", []⟩, ⟨")", []⟩, ⟨")", []⟩,
    ⟨";", []⟩,
    ⟨"(", []⟩, ⟨"exp", []⟩, ⟨"ID", "x"⟩, ⟨")", []⟩, ⟨";", []⟩]

/-- Another declaration of the same name. -/
def redeclaration : List Token :=
  [⟨"(", []⟩, ⟨"new", []⟩, ⟨"(", []⟩, ⟨"init", []⟩, ⟨"ID", "x"⟩, ⟨"INT", "5"⟩, ⟨")", []⟩, ⟨")", []⟩,
    ⟨";", []⟩]

/-- The calls that insert tokens. -/
def inserting (toks : List Token) : List Call := toks.map .insert

theorem variables_keep_declarations_failingDeclaration :
    ∃ u ∈ (Run.of none () (inserting failingDeclaration)).tree.mentions, ∃ r : Run Unit,
      r = Run.of none () (inserting failingDeclaration ++ [.evaluate false []]) ∧
      u.role = .refers ∧ u.target = some 5 ∧
      (r.tree.evaluate none r.world false []).stop =
        some (.failed { cause := .noLongerDeclared u.name, node := some u.token }) := by
  have hu : ∃ u ∈ (Run.of none () (inserting failingDeclaration)).tree.mentions,
      u.role = .refers ∧ u.target = some 5 ∧ u.analyzed = true ∧ u.binding = some 0 ∧
      ∃ x ∈ (Run.of none () (inserting failingDeclaration ++ [.evaluate false []])).tree.visits none
          (Run.of none () (inserting failingDeclaration ++ [.evaluate false []])).world false [],
        x.operand?.map Label.serial = some u.serial ∧ x.machine.slot? 0 u.name = none := by
    decide +kernel
  obtain ⟨u, hmem, hrole, htarget, ha, hb, x, hx, hop, hgone⟩ := hu
  obtain ⟨v, hv, hs⟩ := Option.map_eq_some_iff.mp hop
  have hnone : (Run.of none () (inserting failingDeclaration ++ [] ++
      [.evaluate false []])).tree.globals.keys = [] := by
    decide +kernel
  have hnew : ∀ mid c rest, [Call.evaluate false []] = mid ++ c :: rest →
      ∀ e, (u.name, e) ∈
          (Run.of none () (inserting failingDeclaration ++ mid ++ [c])).tree.globals.keys →
        (u.name, e) ∈ (Run.of none () (inserting failingDeclaration ++ mid)).tree.globals.keys := by
    intro mid c rest h e he
    cases mid with
    | nil =>
      obtain ⟨rfl, -⟩ := List.cons.inj h
      rw [hnone] at he
      cases he
    | cons _ mid => simp at h
  obtain ⟨k, hk, ⟨e, he, -⟩ | ⟨-, hstop⟩⟩ := Run.variables_keep_declarations none ()
    (inserting failingDeclaration) [.evaluate false []] hmem ha (fun _ => hnew) false [] hx hv hs
  · obtain rfl : k = 0 := Option.some.inj (hk.symm.trans hb)
    rw [hgone] at he
    cases he
  · exact ⟨u, hmem, _, rfl, hrole, htarget, hstop⟩

/-- A waiting reference is captured: its declaration is discarded, its name is declared anew, and
when it is evaluated it reads the cell of the new declaration. -/
theorem redeclaration_captures_reference :
    ∃ u ∈ (Run.of none () (inserting failingDeclaration)).tree.mentions,
      u.role = .refers ∧ u.analyzed = true ∧ u.target = some 5 ∧
      (u.name, 5) ∉ (Run.of none () (inserting failingDeclaration ++ .evaluate false [] ::
        inserting redeclaration)).tree.globals.keys ∧
      ∃ x ∈ (Run.of none () (inserting failingDeclaration ++ .evaluate false [] ::
          inserting redeclaration)).tree.visits none () false [],
        x.operand?.map Label.serial = some u.serial ∧
        (x.machine.slot? 0 u.name).map Scope.Entry.declarer = some 26 ∧
        (x.outcome none).1.toOption.map Label.result = some .nil := by
  decide +kernel

end TokenShell
