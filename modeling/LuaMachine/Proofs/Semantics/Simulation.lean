import LuaMachine.Proofs.Semantics.Setting

/-!
# The code of plain constructs does what they mean

`Setting.Matches` ties the variables of the semantics to the slots of the frame: what is visible is
declared in the same order on both sides, and the slot of a declaration holds the cell of its
variable. From worlds that match, the code of an expression comes to its value on the stack
(`Setting.Gives`), and the code of statements to what the semantics says of how they end
(`Setting.Meets`): to the address behind them in a world that matches again, to the target of
`break`, to the return of the chunk, or to its failure. Where the semantics reaches the bound on the
passes of a loop, as many instructions are passed.

There is one lemma for each construct. The induction over the trees (`Setting.runs_block`) puts them
together.
-/

namespace LuaMachine

namespace Setting

variable {g : Setting} {σ σ' : Store} {slots slots' : Slots} {vis : Visible} {ρ : Env}
  {slot slot' a b : Nat} {vs : List Value} {k m : Nat} {w w' : World}

/-! ## Variables and slots -/

/-- The visible declarations are those of the environment, in slots below `slot`. -/
def Matches (g : Setting) (slots : Slots) (σ : Store) (slot : Nat) : Visible → Env → Prop :=
  List.Forall₂ fun p q => p.1 = q.1 ∧ p.2 < slot ∧ slots[p.2]? = some (some (g.cell q.2)) ∧
    q.2 < σ.length

/-- Slots below `slot` that were declared are as they were, and no variable is gone. -/
structure Continues (slot : Nat) (slots : Slots) (σ : Store) (slots' : Slots) (σ' : Store) : Prop where
  keeps : ∀ {i c}, i < slot → slots[i]? = some (some c) → slots'[i]? = some (some c)
  length_le : σ.length ≤ σ'.length

namespace Continues

theorem refl (slot : Nat) (slots : Slots) (σ : Store) : Continues slot slots σ slots σ :=
  ⟨fun _ h => h, Nat.le_refl _⟩

theorem trans {slots'' : Slots} {σ'' : Store} (h₁ : Continues slot slots σ slots' σ')
    (h₂ : Continues slot' slots' σ' slots'' σ'') (hle : slot ≤ slot') :
    Continues slot slots σ slots'' σ'' :=
  ⟨fun hi h => h₂.keeps (Nat.lt_of_lt_of_le hi hle) (h₁.keeps hi h),
    Nat.le_trans h₁.length_le h₂.length_le⟩

/-- Fewer slots are kept as well. -/
theorem le (h : Continues slot' slots σ slots' σ') (hle : slot ≤ slot') :
    Continues slot slots σ slots' σ' :=
  (Continues.refl slot slots σ).trans h hle

/-- A new variable in the next slot. -/
theorem declare (g : Setting) (slots : Slots) (σ : Store) (slot : Nat) (d : Datum) :
    Continues slot slots σ (Exec.setSlot slots slot (g.cell σ.length)) (σ ++ [d]) := by
  refine ⟨fun hi h => getElem?_setSlot_of_ne _ (Nat.ne_of_lt hi) h, ?_⟩
  rw [List.length_append]
  exact Nat.le_add_right _ _

end Continues

namespace Matches

theorem mono (h : g.Matches slots σ slot vis ρ) (hc : Continues slot slots σ slots' σ')
    (hle : slot ≤ slot') : g.Matches slots' σ' slot' vis ρ :=
  List.Forall₂.imp (fun _ _ ⟨hname, hlt, hslot, hvar⟩ =>
    ⟨hname, Nat.lt_of_lt_of_le hlt hle, hc.keeps hlt hslot,
      Nat.lt_of_lt_of_le hvar hc.length_le⟩) h

/-- A new variable in the next slot. -/
theorem declare (h : g.Matches slots σ slot vis ρ) (name : String) (d : Datum) :
    g.Matches (Exec.setSlot slots slot (g.cell σ.length)) (σ ++ [d]) (slot + 1)
      ((name, slot) :: vis) ((name, σ.length) :: ρ) := by
  refine .cons ⟨rfl, Nat.lt_succ_self slot, getElem?_setSlot_self _ _ _, ?_⟩
    (h.mono (.declare g slots σ slot d) (Nat.le_succ slot))
  rw [List.length_append]
  exact Nat.lt_succ_self _

/-- The slot of a visible name holds the cell of the variable that it stands for. -/
theorem lookup (h : g.Matches slots σ slot vis ρ) {name : String} {s : Nat}
    (hs : vis.slot? name = some s) :
    ∃ i, ρ.lookup name = some i ∧ slots[s]? = some (some (g.cell i)) := by
  induction h with
  | nil => cases hs
  | @cons p q vis ρ hpq _ ih =>
    obtain ⟨hname, -, hslot, -⟩ := hpq
    unfold Visible.slot? at hs
    unfold Env.lookup
    rw [List.find?_cons] at hs ⊢
    rw [← hname]
    cases heq : p.1 == name with
    | true =>
      rw [heq] at hs
      cases hs
      exact ⟨q.2, rfl, hslot⟩
    | false =>
      rw [heq] at hs
      exact ih hs

end Matches

/-! ## One thing after the other -/

theorem Passes.refl (w : World) : g.Passes 0 w w := Reentry.Passes.refl

theorem Passes.trans {w'' : World} (h₁ : g.Passes k w w') (h₂ : g.Passes m w' w'') :
    g.Passes (k + m) w w'' :=
  Reentry.Passes.trans h₁ h₂

theorem Fails.after {f : Fault} (h₁ : g.Passes k w w') (h₂ : g.Fails w' f) : g.Fails w f := by
  obtain ⟨m, e, w'', hrun, hmessage⟩ := h₂
  exact ⟨k + m, e, w'', (Reentry.Passes.run_eq h₁ m).trans hrun, hmessage⟩

theorem Returns.after {ds : List Datum} (h₁ : g.Passes k w w') (h₂ : g.Returns w' ds) :
    g.Returns w ds := by
  obtain ⟨m, w'', hrun⟩ := h₂
  exact ⟨k + m, w'', (Reentry.Passes.run_eq h₁ m).trans hrun⟩

theorem Gives.after {result : Except Fault Datum} (h₁ : g.Passes k w w')
    (h₂ : g.Gives w' σ slots vs b result) : g.Gives w σ slots vs b result := by
  cases result with
  | ok d =>
    obtain ⟨m, hm⟩ := h₂
    exact ⟨k + m, h₁.trans hm⟩
  | error f => exact Fails.after h₁ h₂

/-- What comes next has the value of an expression on top of the stack. -/
theorem Gives.bind {vs' : List Value} {m : Nat} {result : Except Fault Datum}
    {next : Datum → Except Fault Datum} (h : g.Gives w σ slots vs m result)
    (hnext : ∀ d, g.Gives (g.state σ slots (d.toValue :: vs) m) σ slots vs' b (next d)) :
    g.Gives w σ slots vs' b (result >>= next) := by
  cases result with
  | ok d =>
    obtain ⟨k, hk⟩ := h
    exact Gives.after hk (hnext d)
  | error f => exact h

/-! ## Expressions -/

/-- The code of an expression comes to its value. -/
theorem gives_expr (hm : g.Matches slots σ slot vis ρ) : ∀ (e : Expr) {a b : Nat} (vs : List Value),
    e.At g.code vis a b → g.Gives (g.state σ slots vs a) σ slots vs b (e.evaluate ρ σ)
  | .nil, _, _, vs, ⟨hop, hb⟩ => hb ▸ ⟨1, passes_literal .nil hop⟩
  | .boolean v, _, _, vs, ⟨hop, hb⟩ => hb ▸ ⟨1, passes_literal (.boolean v) hop⟩
  | .number n, _, _, vs, ⟨hop, hb⟩ => hb ▸ ⟨1, passes_literal (.number n) hop⟩
  | .string s, _, _, vs, ⟨hop, hb⟩ => hb ▸ ⟨1, passes_literal (.string s) hop⟩
  | .name n, _, _, vs, ⟨s, hs, hop, hb⟩ => by
    subst hb
    obtain ⟨i, hi, hslot⟩ := hm.lookup hs
    have hread : ρ.read σ n = σ.getD i .nil := by
      unfold Env.read
      rw [hi]
    rw [Expr.evaluate, hread]
    exact ⟨1, passes_load hop hslot⟩
  | .paren e, _, _, vs, hat => by
    rw [Expr.evaluate]
    exact gives_expr hm e vs hat
  | .unary op e, _, _, vs, ⟨m, he, hop, hb⟩ => by
    subst hb
    rw [Expr.evaluate]
    exact (gives_expr hm e vs he).bind fun d => gives_unary d hop
  | .binary op left right, _, _, vs, ⟨m, k, hl, hr, hop, hb⟩ => by
    subst hb
    rw [Expr.evaluate]
    refine (gives_expr hm left vs hl).bind fun x => ?_
    exact (gives_expr hm right _ hr).bind fun y => gives_binary x y hop
  | .logical op left right, _, _, vs, ⟨m, hl, hop, hr⟩ => by
    rw [Expr.evaluate]
    refine (gives_expr hm left vs hl).bind fun x => ?_
    have hjump : g.Passes 1 (g.state σ slots (x.toValue :: vs) m) _ := passes_logical x hop
    cases hd : op.decides x with
    | true =>
      rw [hd] at hjump
      exact ⟨1, hjump⟩
    | false =>
      rw [hd] at hjump
      exact Gives.after hjump (gives_expr hm right vs hr)
  | .varargs, _, _, _, h | .function _, _, _, _, h | .table _, _, _, _, h | .index .., _, _, _, h
  | .call .., _, _, _, h | .methodCall .., _, _, _, h => h.elim

/-- The code of several expressions comes to their values, the last one on top. -/
theorem gives_all (hm : g.Matches slots σ slot vis ρ) : ∀ (es : List Expr) {a b : Nat}
    (vs : List Value), Expr.AllAt g.code vis es a b →
    match Expr.evaluateAll ρ σ es with
    | .ok ds => ds.length = es.length ∧ ∃ k, g.Passes k (g.state σ slots vs a)
        (g.state σ slots ((ds.map Datum.toValue).reverse ++ vs) b)
    | .error f => g.Fails (g.state σ slots vs a) f
  | [], _, _, vs, hat => by
    subst hat
    exact ⟨rfl, 0, .refl _⟩
  | e :: es, _, _, vs, ⟨m, he, hes⟩ => by
    rw [Expr.evaluateAll]
    have hfirst := gives_expr hm e vs he
    cases hd : e.evaluate ρ σ with
    | error f =>
      rw [hd] at hfirst
      exact hfirst
    | ok d =>
      rw [hd] at hfirst
      obtain ⟨k, hk⟩ := hfirst
      have hrest := gives_all hm es (d.toValue :: vs) hes
      cases hds : Expr.evaluateAll ρ σ es with
      | error f =>
        rw [hds] at hrest
        exact Fails.after hk hrest
      | ok ds =>
        rw [hds] at hrest
        obtain ⟨hlength, k', hk'⟩ := hrest
        refine ⟨congrArg (· + 1) hlength, k + k', ?_⟩
        simpa using hk.trans hk'

/-! ## How statements end -/

/-- The chunk comes to what the semantics says: `normally` to a world behind the code, `broken` to one
where a loop is left. When the semantics is `unfinished`, at least `n` instructions are passed. -/
def Meets (g : Setting) (n : Nat) (normally : Env → Store → World → Prop)
    (broken : Store → World → Prop) (w : World) : Completion → Prop
  | .normal ρ σ => ∃ k w', g.Passes k w w' ∧ normally ρ σ w'
  | .broke σ => ∃ k w', g.Passes k w w' ∧ broken σ w'
  | .returned ds => g.Returns w ds
  | .failed f => g.Fails w f
  | .unfinished => ∃ k w', n ≤ k ∧ g.Passes k w w'

namespace Meets

variable {n : Nat} {N N' : Env → Store → World → Prop} {B B' : Store → World → Prop} {c : Completion}

/-- Instructions before count. -/
theorem after (h₁ : g.Passes k w w') (h₂ : g.Meets m N B w' c) : g.Meets (k + m) N B w c := by
  cases c with
  | normal ρ σ =>
    obtain ⟨k', w'', hpass, hn⟩ := h₂
    exact ⟨k + k', w'', h₁.trans hpass, hn⟩
  | broke σ =>
    obtain ⟨k', w'', hpass, hb⟩ := h₂
    exact ⟨k + k', w'', h₁.trans hpass, hb⟩
  | returned ds => exact Returns.after h₁ h₂
  | failed f => exact Fails.after h₁ h₂
  | unfinished =>
    obtain ⟨k', w'', hle, hpass⟩ := h₂
    exact ⟨k + k', w'', Nat.add_le_add_left hle k, h₁.trans hpass⟩

theorem mono (h : g.Meets n N B w c) (hle : m ≤ n) (hN : ∀ ρ σ w, N ρ σ w → N' ρ σ w)
    (hB : ∀ σ w, B σ w → B' σ w) : g.Meets m N' B' w c := by
  cases c with
  | normal ρ σ =>
    obtain ⟨k', w'', hpass, hn⟩ := h
    exact ⟨k', w'', hpass, hN _ _ _ hn⟩
  | broke σ =>
    obtain ⟨k', w'', hpass, hb⟩ := h
    exact ⟨k', w'', hpass, hB _ _ hb⟩
  | returned ds => exact h
  | failed f => exact h
  | unfinished =>
    obtain ⟨k', w'', hk, hpass⟩ := h
    exact ⟨k', w'', Nat.le_trans hle hk, hpass⟩

theorem le (h : g.Meets n N B w c) (hle : m ≤ n) : g.Meets m N B w c :=
  h.mono hle (fun _ _ _ => id) fun _ _ => id

/-- What comes behind statements that end normally. -/
theorem andThen {next : Env → Store → Completion} (h : g.Meets n N' B w c)
    (hnext : ∀ ρ σ w', N' ρ σ w' → g.Meets n N B w' (next ρ σ)) :
    g.Meets n N B w (c.andThen next) := by
  cases c with
  | normal ρ σ =>
    obtain ⟨k, w', hpass, hn⟩ := h
    exact (after hpass (hnext ρ σ w' hn)).le (Nat.le_add_left _ _)
  | _ => exact h

/-- Some instructions behind statements that end normally. -/
theorem continued (h : g.Meets n N' B w c)
    (hnext : ∀ ρ σ w', N' ρ σ w' → ∃ k w'', g.Passes k w' w'' ∧ N ρ σ w'') : g.Meets n N B w c := by
  cases c with
  | normal ρ σ =>
    obtain ⟨k, w', hpass, hn⟩ := h
    obtain ⟨m, w'', hpass', hn'⟩ := hnext ρ σ w' hn
    exact ⟨k + m, w'', hpass.trans hpass', hn'⟩
  | _ => exact h

/-- The end of a block. -/
theorem leaving (h : g.Meets n N' B w c) (hN : ∀ ρ' σ w', N' ρ' σ w' → N ρ σ w') :
    g.Meets n N B w (c.leaving ρ) := by
  cases c with
  | normal ρ' σ =>
    obtain ⟨k, w', hpass, hn⟩ := h
    exact ⟨k, w', hpass, hN ρ' σ w' hn⟩
  | _ => exact h

end Meets

/-! ## Loops -/

section Loops

variable {α : Type} {n : Nat} {N N' : Env → Store → World → Prop} {B B' : Store → World → Prop}
  {R : α → World → Prop} {p : Pass α} {c : Completion}

/-- A pass of a loop passes an instruction and comes to where the next pass starts, or it is the last
one. -/
def MeetsPass (g : Setting) (n : Nat) (R : α → World → Prop) (N : Env → Store → World → Prop)
    (B : Store → World → Prop) (w : World) : Pass α → Prop
  | .again a => ∃ k w', 0 < k ∧ g.Passes k w w' ∧ R a w'
  | .done c => g.Meets n N B w c

theorem MeetsPass.after (h₁ : g.Passes k w w') (h₂ : g.MeetsPass n R N B w' p) :
    g.MeetsPass n R N B w p := by
  cases p with
  | again a =>
    obtain ⟨k', w'', hpos, hpass, hr⟩ := h₂
    exact ⟨k + k', w'', Nat.add_pos_right k hpos, h₁.trans hpass, hr⟩
  | done c => exact (Meets.after h₁ h₂).le (Nat.le_add_left _ _)

/-- The body of a loop, and how the pass goes on behind it. -/
theorem Meets.pass {next : Env → Store → Pass α} (h : g.Meets n N' B' w c)
    (hnext : ∀ ρ' σ w', N' ρ' σ w' → g.MeetsPass n R N B w' (next ρ' σ))
    (hbroken : ∀ σ w', B' σ w' → g.Meets n N B w' (.normal ρ σ)) :
    g.MeetsPass n R N B w (c.pass ρ next) := by
  cases c with
  | normal ρ' σ =>
    obtain ⟨k, w', hpass, hn⟩ := h
    exact MeetsPass.after hpass (hnext ρ' σ w' hn)
  | broke σ =>
    obtain ⟨k, w', hpass, hb⟩ := h
    exact (Meets.after hpass (hbroken σ w' hb)).le (Nat.le_add_left _ _)
  | _ => exact h

/-- A loop passes at least as many instructions as it makes passes. -/
theorem meets_iterate {pass : α → Pass α}
    (hpass : ∀ a w, R a w → g.MeetsPass n R N B w (pass a)) :
    ∀ m ≤ n, ∀ a w, R a w → g.Meets m N B w (iterate pass m a)
  | 0, _, a, w, _ => ⟨0, w, Nat.le_refl 0, .refl w⟩
  | m + 1, hm, a, w, hr => by
    have hfirst := hpass a w hr
    rw [iterate]
    cases hp : pass a with
    | done c =>
      rw [hp] at hfirst
      exact Meets.le hfirst hm
    | again a' =>
      rw [hp] at hfirst
      obtain ⟨k, w', hpos, hpass', hr'⟩ := hfirst
      have hrest := meets_iterate hpass m (Nat.le_of_succ_le hm) a' w' hr'
      exact (Meets.after hpass' hrest).le (by omega)

end Loops

/-! ## Statements -/

/-- Behind some code, with its variables visible. -/
def Behind (g : Setting) (slot : Nat) (slots : Slots) (σ : Store) (vs : List Value) (b : Nat)
    (vis' : Visible) (slot' : Nat) (ρ' : Env) (σ' : Store) (w : World) : Prop :=
  ∃ slots', w = g.state σ' slots' vs b ∧ Continues slot slots σ slots' σ' ∧
    g.Matches slots' σ' slot' vis' ρ'

/-- At the target of a `break`. -/
def Broken (g : Setting) (target : Option Nat) (slot : Nat) (slots : Slots) (σ : Store)
    (vs : List Value) (σ' : Store) (w : World) : Prop :=
  ∃ t slots', target = some t ∧ w = g.state σ' slots' vs t ∧ Continues slot slots σ slots' σ'

/-- The code of a statement does what the statement means. -/
def Runs (g : Setting) (n : Nat) (st : Stat) : Prop :=
  ∀ {target vis slot a b vis' slot' ρ σ slots vs},
    st.At g.code target vis slot a b vis' slot' → g.Matches slots σ slot vis ρ →
    g.Meets n (g.Behind slot slots σ vs b vis' slot') (g.Broken target slot slots σ vs)
      (g.state σ slots vs a) (st.execute n ρ σ)

/-- The code of a block does what the block means. -/
def BlockRuns (g : Setting) (n : Nat) (body : List Stat) : Prop :=
  ∀ {target vis slot a b vis' slot' ρ σ slots vs},
    Block.At g.code target body vis slot a b vis' slot' → g.Matches slots σ slot vis ρ →
    g.Meets n (g.Behind slot slots σ vs b vis' slot') (g.Broken target slot slots σ vs)
      (g.state σ slots vs a) (Block.execute n body ρ σ)

variable {n : Nat}

/-- The code that binds names makes the new variables. -/
theorem passes_binds (ds : List Datum) (vs : List Value) : ∀ (names : List String)
    {slot i a b : Nat} {vis : Visible} {ρ : Env} {slots : Slots} {σ : Store},
    BindsAt g.code slot i names a b → g.Matches slots σ slot vis ρ →
    ∃ k slots', g.Passes k (g.state σ slots (.ofList (ds.map Datum.toValue) :: vs) a)
        (g.state (ρ.declare σ names (ds.drop i)).2 slots' (.ofList (ds.map Datum.toValue) :: vs) b) ∧
      Continues slot slots σ slots' (ρ.declare σ names (ds.drop i)).2 ∧
      g.Matches slots' (ρ.declare σ names (ds.drop i)).2 (slot + names.length)
        (vis.declare slot names) (ρ.declare σ names (ds.drop i)).1
  | [], slot, _, _, _, _, _, slots, σ, hat, hm => by
    subst hat
    exact ⟨0, slots, .refl _, .refl slot slots σ, hm⟩
  | name :: names, slot, i, a, b, vis, ρ, slots, σ, ⟨hop, hat⟩, hm => by
    have hhead : (ds.drop i).headD .nil = ds.getD i .nil := by
      rw [List.headD_eq_head?_getD, List.head?_drop, List.getD_eq_getElem?_getD]
    rw [Env.declare, hhead, List.tail_drop]
    obtain ⟨k, slots', hpass, hcont, hm'⟩ := passes_binds ds vs names hat (hm.declare name _)
    refine ⟨1 + k, slots', (passes_local ds hop).trans hpass, ?_, ?_⟩
    · exact (Continues.declare g slots σ slot _).trans hcont (Nat.le_succ slot)
    · rw [List.length_cons, Nat.add_comm names.length, ← Nat.add_assoc]
      exact hm'

/-- The code that assigns to names changes their variables. -/
theorem passes_stores (ds : List Datum) (vs : List Value) : ∀ (targets : List Expr)
    {i a b : Nat} {σ : Store}, StoresAt g.code vis i targets a b → g.Matches slots σ slot vis ρ →
    ∃ k, g.Passes k (g.state σ slots (.ofList (ds.map Datum.toValue) :: vs) a)
        (g.state (ρ.assign σ targets (ds.drop i)) slots (.ofList (ds.map Datum.toValue) :: vs) b) ∧
      Continues slot slots σ slots (ρ.assign σ targets (ds.drop i))
  | [], _, _, _, σ, hat, _ => by
    subst hat
    rw [Env.assign]
    · exact ⟨0, .refl _, .refl slot slots σ⟩
    · simp
  | e :: targets, i, a, b, σ, hat, hm => by
    cases e with
    | name n =>
      obtain ⟨s, hs, hop, hat⟩ := hat
      obtain ⟨j, hj, hslot⟩ := hm.lookup hs
      have hhead : (ds.drop i).headD .nil = ds.getD i .nil := by
        rw [List.headD_eq_head?_getD, List.head?_drop, List.getD_eq_getElem?_getD]
      have hwrite : ∀ d, ρ.write σ n d = σ.set j d := by
        intro d
        unfold Env.write
        rw [hj]
      have hcont : ∀ d, Continues slot slots σ slots (σ.set j d) :=
        fun d => ⟨fun _ h => h, Nat.le_of_eq (List.length_set ..).symm⟩
      rw [Env.assign, hhead, hwrite, List.tail_drop]
      obtain ⟨k, hpass, hrest⟩ := passes_stores ds vs targets hat (hm.mono (hcont _) (Nat.le_refl slot))
      exact ⟨1 + k, (passes_store ds hop hslot).trans hpass, (hcont _).trans hrest (Nat.le_refl slot)⟩
    | _ => exact hat.elim

theorem runs_local {names : List String} {values : List Expr} {extent : Extent} :
    g.Runs n (.local names values extent) := by
  rintro target vis slot a b vis' slot' ρ σ slots vs ⟨m, k, hvalues, htuple, hbinds, hpop, rfl, rfl, rfl⟩ hm
  rw [Stat.execute]
  have hall := gives_all hm values vs hvalues
  cases hds : Expr.evaluateAll ρ σ values with
  | error f =>
    rw [hds] at hall
    exact hall
  | ok ds =>
    rw [hds] at hall
    obtain ⟨hlength, k₁, h₁⟩ := hall
    have h₂ : g.Passes 1 (g.state σ slots ((ds.map Datum.toValue).reverse ++ vs) m) _ :=
      passes_makeTuple ds (hlength ▸ htuple)
    obtain ⟨k₃, slots', h₃, hcont, hm'⟩ := passes_binds ds vs names hbinds hm
    have h₄ : g.Passes 1
        (g.state (ρ.declare σ names ds).2 slots' (.ofList (ds.map Datum.toValue) :: vs) k) _ :=
      passes_pop [.ofList (ds.map Datum.toValue)] hpop
    exact ⟨_, _, ((h₁.trans h₂).trans h₃).trans h₄, slots', rfl, hcont, hm'⟩

theorem runs_assign {targets values : List Expr} {extent : Extent} :
    g.Runs n (.assign targets values extent) := by
  rintro target vis slot a b vis' slot' ρ σ slots vs ⟨m, k, hvalues, htuple, hstores, hpop, rfl, rfl, rfl⟩ hm
  rw [Stat.execute]
  have hall := gives_all hm values vs hvalues
  cases hds : Expr.evaluateAll ρ σ values with
  | error f =>
    rw [hds] at hall
    exact hall
  | ok ds =>
    rw [hds] at hall
    obtain ⟨hlength, k₁, h₁⟩ := hall
    have h₂ : g.Passes 1 (g.state σ slots ((ds.map Datum.toValue).reverse ++ vs) m) _ :=
      passes_makeTuple ds (hlength ▸ htuple)
    obtain ⟨k₃, h₃, hcont⟩ := passes_stores ds vs targets hstores hm
    have h₄ : g.Passes 1
        (g.state (ρ.assign σ targets ds) slots (.ofList (ds.map Datum.toValue) :: vs) k) _ :=
      passes_pop [.ofList (ds.map Datum.toValue)] hpop
    exact ⟨_, _, ((h₁.trans h₂).trans h₃).trans h₄, slots, rfl, hcont, hm.mono hcont (Nat.le_refl _)⟩

theorem runs_return {values : List Expr} {extent : Extent} :
    g.Runs n (.return values extent) := by
  rintro target vis slot a b vis' slot' ρ σ slots vs ⟨m, hvalues, hret, -, -⟩ hm
  rw [Stat.execute]
  have hall := gives_all hm values vs hvalues
  cases hds : Expr.evaluateAll ρ σ values with
  | error f =>
    rw [hds] at hall
    exact hall
  | ok ds =>
    rw [hds] at hall
    obtain ⟨hlength, k₁, h₁⟩ := hall
    refine Returns.after h₁ ?_
    rw [← hlength] at hret
    rcases ds with _ | ⟨d, _ | ⟨d', ds⟩⟩
    · exact returns_nothing hret.1
    · exact returns_top [d] hret.1
    · obtain ⟨htuple, hret, -⟩ := hret
      exact Returns.after (passes_makeTuple (d :: d' :: ds) htuple) (returns_top (d :: d' :: ds) hret)

theorem runs_break {extent : Extent} : g.Runs n (.break extent) := by
  rintro target vis slot a b vis' slot' ρ σ slots vs ⟨⟨t, ht, hop⟩, -, -, -⟩ hm
  rw [Stat.execute_break]
  exact ⟨1, _, passes_jump hop, t, slots, ht, rfl, .refl slot slots σ⟩

theorem runs_do {body : List Stat} {extent : Extent} (hbody : g.BlockRuns n body) :
    g.Runs n (.do body extent) := by
  rintro target vis slot a b vis' slot' ρ σ slots vs ⟨⟨vis₁, hat⟩, rfl⟩ hm
  rw [Stat.execute]
  refine (hbody hat hm).leaving ?_
  rintro ρ' σ' w' ⟨slots', rfl, hcont, -⟩
  exact ⟨slots', rfl, hcont, hm.mono hcont (Block.At.slot_le body hat)⟩

/-- Where a pass of a loop starts. -/
def AtLoop (g : Setting) (slot : Nat) (slots : Slots) (σ : Store) (vs : List Value) (a : Nat)
    (σ' : Store) (w : World) : Prop :=
  ∃ slots', w = g.state σ' slots' vs a ∧ Continues slot slots σ slots' σ'

/-- Behind a loop the names in front of it are visible. -/
theorem behind_loop (hm : g.Matches slots σ slot vis ρ) (hle : slot ≤ slot')
    (hcont : Continues slot slots σ slots' σ') :
    g.Behind slot slots σ vs b vis slot' ρ σ' (g.state σ' slots' vs b) :=
  ⟨slots', rfl, hcont, hm.mono hcont hle⟩

theorem runs_while {condition : Expr} {body : List Stat} {extent closing : Extent}
    (hbody : g.BlockRuns n body) : g.Runs n (.while condition body extent closing) := by
  rintro target vis slot a b vis' slot' ρ σ slots vs
    ⟨m, k, vis₁, hcondition, hleave, hat, hback, rfl, rfl⟩ hm
  have hle := Block.At.slot_le body hat
  rw [Stat.execute]
  refine meets_iterate (R := g.AtLoop slot slots σ vs a) ?_ n (Nat.le_refl n) σ _
    ⟨slots, rfl, .refl slot slots σ⟩
  rintro σ₁ w ⟨slots₁, rfl, hcont₁⟩
  have hm₁ := hm.mono hcont₁ (Nat.le_refl slot)
  have htest := gives_expr hm₁ condition vs hcondition
  cases hd : condition.evaluate ρ σ₁ with
  | error f =>
    rw [hd] at htest
    exact htest
  | ok d =>
    rw [hd] at htest
    obtain ⟨k₁, h₁⟩ := htest
    have h₂ : g.Passes 1 (g.state σ₁ slots₁ (d.toValue :: vs) m) _ := passes_jumpIfFalse d hleave
    dsimp only
    cases ht : d.isTruthy with
    | false =>
      rw [ht] at h₂
      exact ⟨_, _, h₁.trans h₂, behind_loop hm hle hcont₁⟩
    | true =>
      rw [ht] at h₂
      refine MeetsPass.after (h₁.trans h₂) ((hbody hat hm₁).pass ?_ ?_)
      · rintro ρ' σ' w' ⟨slots', rfl, hcont', -⟩
        exact ⟨1, _, Nat.one_pos, passes_jump hback, slots', rfl,
          hcont₁.trans hcont' (Nat.le_refl slot)⟩
      · rintro σ' w' ⟨t, slots', ht, rfl, hcont'⟩
        cases ht
        exact ⟨0, _, .refl _, behind_loop hm hle (hcont₁.trans hcont' (Nat.le_refl slot))⟩

theorem runs_repeat {body : List Stat} {condition : Expr} {extent : Extent}
    (hbody : g.BlockRuns n body) : g.Runs n (.repeat body condition extent) := by
  rintro target vis slot a b vis' slot' ρ σ slots vs
    ⟨m, k, vis₁, hat, hcondition, hagain, rfl, rfl⟩ hm
  have hle := Block.At.slot_le body hat
  rw [Stat.execute]
  refine meets_iterate (R := g.AtLoop slot slots σ vs a) ?_ n (Nat.le_refl n) σ _
    ⟨slots, rfl, .refl slot slots σ⟩
  rintro σ₁ w ⟨slots₁, rfl, hcont₁⟩
  have hm₁ := hm.mono hcont₁ (Nat.le_refl slot)
  refine (hbody hat hm₁).pass ?_ ?_
  · -- the condition sees the names of the body
    rintro ρ' σ' w' ⟨slots', rfl, hcont', hm'⟩
    have hcont := hcont₁.trans hcont' (Nat.le_refl slot)
    have htest := gives_expr hm' condition vs hcondition
    cases hd : condition.evaluate ρ' σ' with
    | error f =>
      rw [hd] at htest
      exact htest
    | ok d =>
      rw [hd] at htest
      obtain ⟨k₁, h₁⟩ := htest
      have h₂ : g.Passes 1 (g.state σ' slots' (d.toValue :: vs) k) _ := passes_jumpIfFalse d hagain
      dsimp only
      cases ht : d.isTruthy with
      | true =>
        rw [ht] at h₂
        exact ⟨_, _, h₁.trans h₂, behind_loop hm hle hcont⟩
      | false =>
        rw [ht] at h₂
        exact ⟨_, _, Nat.succ_pos _, h₁.trans h₂, slots', rfl, hcont⟩
  · rintro σ' w' ⟨t, slots', ht, rfl, hcont'⟩
    cases ht
    exact ⟨0, _, .refl _, behind_loop hm hle (hcont₁.trans hcont' (Nat.le_refl slot))⟩

/-- The three numbers of a loop come to the top of the stack. -/
theorem passes_bounds {first limit step : Expr} {i j k : Nat} (hm : g.Matches slots σ slot vis ρ)
    (vs : List Value) (hfirst : first.At g.code vis a i) (hlimit : limit.At g.code vis i j)
    (hstep : step.At g.code vis j k) (hprep : g.code k = some .forPrep) :
    match Expr.bounds ρ σ first limit step with
    | .ok (x, y, z) => ∃ m, g.Passes m (g.state σ slots vs a)
        (g.state σ slots (.number z :: .number y :: .number x :: vs) (k + 1))
    | .error f => g.Fails (g.state σ slots vs a) f := by
  have hall := gives_all hm [first, limit, step] vs ⟨i, hfirst, j, hlimit, k, hstep, rfl⟩
  have hbounds : Expr.bounds ρ σ first limit step =
      Expr.evaluateAll ρ σ [first, limit, step] >>= fun ds =>
        Datum.controls (ds.getD 0 .nil) (ds.getD 1 .nil) (ds.getD 2 .nil) := by
    simp only [Expr.bounds, Expr.evaluateAll, bind_assoc, pure_bind]
    rfl
  rw [hbounds]
  cases hds : Expr.evaluateAll ρ σ [first, limit, step] with
  | error f =>
    rw [hds] at hall
    exact hall
  | ok ds =>
    rw [hds] at hall
    obtain ⟨hlength, m, hm⟩ := hall
    obtain ⟨d₁, d₂, d₃, rfl⟩ := List.length_eq_three.1 hlength
    have hprep := passes_forPrep σ slots vs d₁ d₂ d₃ hprep
    show match Datum.controls d₁ d₂ d₃ with | .ok (x, y, z) => _ | .error f => _
    cases hc : Datum.controls d₁ d₂ d₃ with
    | error f =>
      rw [hc] at hprep
      exact Fails.after hm hprep
    | ok p =>
      rw [hc] at hprep
      exact ⟨m + 1, hm.trans hprep⟩

theorem runs_numericFor {var : String} {first limit step : Expr} {body : List Stat}
    {extent closing : Extent} (hbody : g.BlockRuns n body) :
    g.Runs n (.numericFor var first limit step body extent closing) := by
  rintro target vis slot a b vis' slot' ρ σ slots vs
    ⟨i, j, k, m, vis₁, hfirst, hlimit, hstep, hprep, hloop, hvar, hat, hforStep, hback, hdrop, rfl,
      rfl⟩ hm
  have hle : slot ≤ slot' := Nat.le_of_succ_le (Block.At.slot_le body hat)
  rw [Stat.execute]
  have hbounds := passes_bounds hm vs hfirst hlimit hstep hprep
  cases hb : Expr.bounds ρ σ first limit step with
  | error f =>
    rw [hb] at hbounds
    exact hbounds
  | ok p =>
    obtain ⟨x, y, z⟩ := p
    rw [hb] at hbounds
    obtain ⟨k₀, h₀⟩ := hbounds
    refine (Meets.after h₀ ?_).le (Nat.le_add_left n k₀)
    -- three values stay on the stack, of which the first counts
    refine meets_iterate (R := fun p w => g.AtLoop slot slots σ
      (.number z :: .number y :: .number p.1 :: vs) (k + 1) p.2 w) ?_ n (Nat.le_refl n) (x, σ) _
      ⟨slots, rfl, .refl slot slots σ⟩
    rintro ⟨x, σ₁⟩ w ⟨slots₁, rfl, hcont₁⟩
    have hm₁ := hm.mono hcont₁ (Nat.le_refl slot)
    have hend : ∀ σ' slots' (x : Number), Continues slot slots σ slots' σ' →
        g.Meets n (g.Behind slot slots σ vs (m + 3) vis' slot') (g.Broken target slot slots σ vs)
          (g.state σ' slots' (.number z :: .number y :: .number x :: vs) (m + 2)) (.normal ρ σ') := by
      intro σ' slots' x hcont
      exact ⟨1, _, passes_pop [.number z, .number y, .number x] hdrop, behind_loop hm hle hcont⟩
    have h₁ : g.Passes 1
        (g.state σ₁ slots₁ (.number z :: .number y :: .number x :: vs) (k + 1)) _ :=
      passes_forLoop hloop
    dsimp only
    cases hbeyond : x.beyond y z with
    | true =>
      rw [hbeyond] at h₁
      exact (Meets.after h₁ (hend σ₁ slots₁ x hcont₁)).le (Nat.le_add_left n 1)
    | false =>
      rw [hbeyond] at h₁
      have h₂ : g.Passes 1
          (g.state σ₁ slots₁ (.number z :: .number y :: .number x :: vs) (k + 2)) _ :=
        passes_forVar hvar
      have hcont₂ := hcont₁.trans (.declare g slots₁ σ₁ slot (.number x)) (Nat.le_refl slot)
      refine MeetsPass.after (h₁.trans h₂) ((hbody hat (hm₁.declare var (.number x))).pass ?_ ?_)
      · rintro ρ' σ' w' ⟨slots', rfl, hcont', -⟩
        exact ⟨_, _, Nat.succ_pos _, (passes_forStep hforStep).trans (passes_jump hback), slots', rfl,
          hcont₂.trans hcont' (Nat.le_succ slot)⟩
      · rintro σ' w' ⟨t, slots', ht, rfl, hcont'⟩
        cases ht
        exact hend σ' slots' x (hcont₂.trans hcont' (Nat.le_succ slot))

/-! ## Conditions -/

/-- The code of the clauses of an `if` does what they mean, and comes to `exit`. -/
def ClausesRun (g : Setting) (n : Nat) (branches : Branches) : Prop :=
  ∀ {target vis slot a exit slot' ρ σ slots vs},
    Branches.At g.code target branches vis slot a exit exit slot' →
    g.Matches slots σ slot vis ρ →
    g.Meets n (g.Behind slot slots σ vs exit vis slot') (g.Broken target slot slots σ vs)
      (g.state σ slots vs a) (branches.execute n ρ σ)

theorem clausesRun_done : g.ClausesRun n .done := by
  rintro target vis slot a exit slot' ρ σ slots vs ⟨rfl, rfl⟩ hm
  rw [Branches.execute_done]
  exact ⟨0, _, .refl _, slots, rfl, .refl _ slots σ, hm⟩

/-- The block of a clause, behind which the names in front of it are visible. -/
theorem meets_inner {body : List Stat} {target : Option Nat} {vis₁ : Visible} (vs : List Value)
    (hbody : g.BlockRuns n body) (hat : Block.At g.code target body vis slot a b vis₁ slot')
    (hm : g.Matches slots σ slot vis ρ) :
    g.Meets n (g.Behind slot slots σ vs b vis slot') (g.Broken target slot slots σ vs)
      (g.state σ slots vs a) ((Block.execute n body ρ σ).leaving ρ) := by
  refine (hbody hat hm).leaving ?_
  rintro ρ' σ' w' ⟨slots', rfl, hcont, -⟩
  exact behind_loop hm (Block.At.slot_le body hat) hcont

theorem clausesRun_otherwise {body : List Stat} (hbody : g.BlockRuns n body) :
    g.ClausesRun n (.otherwise body) := by
  rintro target vis slot a exit slot' ρ σ slots vs ⟨vis₁, hat⟩ hm
  rw [Branches.execute]
  exact meets_inner vs hbody hat hm

theorem clausesRun_clause {condition : Expr} {body : List Stat} {header : Extent}
    {rest : Branches} (hbody : g.BlockRuns n body) (hrest : g.ClausesRun n rest) :
    g.ClausesRun n (.clause condition body header rest) := by
  rintro target vis slot a exit slot' ρ σ slots vs ⟨m, k, vis₁, slot₁, hcondition, hat, hjumps⟩ hm
  rw [Branches.execute]
  have htest := gives_expr hm condition vs hcondition
  cases hd : condition.evaluate ρ σ with
  | error f =>
    rw [hd] at htest
    exact htest
  | ok d =>
    rw [hd] at htest
    obtain ⟨k₁, h₁⟩ := htest
    have hinner := meets_inner vs hbody hat hm
    dsimp only
    rcases hjumps with ⟨rfl, hleave, rfl, rfl⟩ | ⟨hleave, hover, hrestAt⟩
    · -- the last clause: a condition that fails leads behind its block
      have h₂ : g.Passes 1 (g.state σ slots (d.toValue :: vs) m) _ := passes_jumpIfFalse d hleave
      cases ht : d.isTruthy with
      | true =>
        rw [ht] at h₂
        exact (Meets.after (h₁.trans h₂) hinner).le (Nat.le_add_left _ _)
      | false =>
        rw [ht] at h₂
        simp only [Bool.false_eq_true, if_false, Branches.execute_done]
        exact ⟨_, _, h₁.trans h₂, behind_loop hm (Block.At.slot_le body hat) (.refl slot slots σ)⟩
    · have h₂ : g.Passes 1 (g.state σ slots (d.toValue :: vs) m) _ := passes_jumpIfFalse d hleave
      have hle := Branches.At.slot_le rest hrestAt
      cases ht : d.isTruthy with
      | true =>
        rw [ht] at h₂
        refine (Meets.after (h₁.trans h₂) (Meets.continued hinner ?_)).le (Nat.le_add_left _ _)
        rintro ρ' σ' w' ⟨slots', rfl, hcont, hm'⟩
        exact ⟨1, _, passes_jump hover, slots', rfl, hcont,
          hm'.mono (.refl slot₁ slots' σ') hle⟩
      | false =>
        rw [ht] at h₂
        have hle₁ := Block.At.slot_le body hat
        have hm₁ := hm.mono (.refl slot slots σ) hle₁
        refine (Meets.after (h₁.trans h₂) (hrest hrestAt hm₁)).mono (Nat.le_add_left _ _) ?_ ?_
        · rintro ρ' σ' w' ⟨slots', rfl, hcont, hm'⟩
          exact ⟨slots', rfl, hcont.le hle₁, hm'⟩
        · rintro σ' w' ⟨t, slots', ht, rfl, hcont⟩
          exact ⟨t, slots', ht, rfl, hcont.le hle₁⟩

theorem runs_if {branches : Branches} {extent : Extent} (hbranches : g.ClausesRun n branches) :
    g.Runs n (.if branches extent) := by
  rintro target vis slot a b vis' slot' ρ σ slots vs ⟨hat, rfl⟩ hm
  rw [Stat.execute]
  exact hbranches hat hm

/-! ## The induction -/

theorem blockRuns_nil : g.BlockRuns n [] := by
  rintro target vis slot a b vis' slot' ρ σ slots vs ⟨rfl, rfl, rfl⟩ hm
  rw [Block.execute_nil]
  exact ⟨0, _, .refl _, slots, rfl, .refl _ slots σ, hm⟩

theorem blockRuns_cons {st : Stat} {rest : List Stat} (hst : g.Runs n st)
    (hrest : g.BlockRuns n rest) : g.BlockRuns n (st :: rest) := by
  rintro target vis slot a b vis' slot' ρ σ slots vs ⟨m, vis₁, slot₁, hstAt, hrestAt⟩ hm
  have hle := Stat.At.slot_le st hstAt
  rw [Block.execute]
  refine (hst hstAt hm).andThen ?_
  rintro ρ₁ σ₁ w ⟨slots₁, rfl, hcont₁, hm₁⟩
  refine (hrest hrestAt hm₁).mono (Nat.le_refl n) ?_ ?_
  · rintro ρ' σ' w' ⟨slots', rfl, hcont, hm'⟩
    exact ⟨slots', rfl, hcont₁.trans hcont hle, hm'⟩
  · rintro σ' w' ⟨t, slots', ht, rfl, hcont⟩
    exact ⟨t, slots', ht, rfl, hcont₁.trans hcont hle⟩

mutual

theorem runs_stat : ∀ st : Stat, g.Runs n st
  | .local .. => runs_local
  | .assign .. => runs_assign
  | .do body _ => runs_do (runs_block body)
  | .while _ body _ _ => runs_while (runs_block body)
  | .repeat body _ _ => runs_repeat (runs_block body)
  | .if branches _ => runs_if (runs_clauses branches)
  | .numericFor _ _ _ _ body _ _ => runs_numericFor (runs_block body)
  | .return .. => runs_return
  | .break _ => runs_break
  | .call .. | .genericFor .. | .function .. | .localFunction .. => fun hat _ => hat.elim

theorem runs_block : ∀ body : List Stat, g.BlockRuns n body
  | [] => blockRuns_nil
  | st :: rest => blockRuns_cons (runs_stat st) (runs_block rest)

theorem runs_clauses : ∀ branches : Branches, g.ClausesRun n branches
  | .done => clausesRun_done
  | .otherwise body => clausesRun_otherwise (runs_block body)
  | .clause _ body _ rest => clausesRun_clause (runs_block body) (runs_clauses rest)

end

end Setting

end LuaMachine
