import LuaMachine.Proofs.Capture.Place
import LuaMachine.Proofs.Scope.Lexical

/-!
# The scopes of the compiler, as places

The place that the scopes of the compiler stand for consists of the captures of the innermost function
and of the declarations in its open blocks. A name resolves to a symbol that is what the name stands
for at that place, and every capture of a function is what its name stands for at the place of the
function around it (`ScopeStack.Orderly`). This is kept by every operation on scopes.

`ScopeStack.Opens` says what became of the scopes in the course of some code of a function: more is
declared in its innermost block, functions may have captured more, and nothing else has changed. What a
function has captured in the end is foretold by the functions around it (`Outline.Foretells`): a name
that stands for nothing outside of a function is never captured by it.

What the compiler does to its scopes while it works on a tree, and when it makes instructions, is a
matter of the tree alone (`Course`). So each instruction has the scopes that there were at its point of
the source (`Course.notes`). The instructions that a function begins with belong to the function, which has
no names yet. A name is declared behind the instruction that binds it, although the compiler has to know
the slot before.

Main statements: `ScopeStack.Orderly.resolve`, `ScopeStack.Orderly.leaveBlock` and
`ScopeStack.Orderly.leaveFunction`.
-/

namespace LuaMachine

namespace FunctionScope

/-- The declarations in open blocks, latest first. -/
def visible (f : FunctionScope) : Visible := f.blocks.flatten

/-- The names of the captured variables. -/
def captured (f : FunctionScope) : List String := f.upvalues.map (·.1)

/-- The names of the captured variables and of the slots. -/
def outline (f : FunctionScope) : Outline := ⟨f.captured, f.locals⟩

/-- What names stand for in a function. -/
def place (f : FunctionScope) : Place := ⟨f.outline, f.visible⟩

/-- Visible declarations have slots with their names, later ones higher slots than earlier ones. -/
structure Named (f : FunctionScope) : Prop where
  names : ∀ d ∈ f.visible, f.locals[d.2]? = some d.1
  ordered : f.visible.Pairwise fun d e => e.2 < d.2

/-- A function that has declared nothing more, and may have captured more. -/
structure Stays (f g : FunctionScope) : Prop where
  blocks : g.blocks = f.blocks
  locals : g.locals = f.locals
  captures : f.upvalues <+: g.upvalues

variable {f g h : FunctionScope}

theorem Stays.refl (f : FunctionScope) : f.Stays f := ⟨rfl, rfl, List.prefix_refl _⟩

theorem Stays.trans (h₁ : f.Stays g) (h₂ : g.Stays h) : f.Stays h :=
  ⟨h₂.blocks.trans h₁.blocks, h₂.locals.trans h₁.locals, h₁.captures.trans h₂.captures⟩

theorem captured_mono (h : f.upvalues <+: g.upvalues) : f.captured <+: g.captured := h.map _

theorem Stays.visible (h : f.Stays g) : g.visible = f.visible := congrArg List.flatten h.blocks

theorem Stays.names (h : f.Stays g) {s : Symbol} (hs : f.place.Names s) : g.place.Names s := by
  rw [place, h.visible]
  exact hs.mono (captured_mono h.captures)

theorem Stays.named (h : f.Stays g) (hf : f.Named) : g.Named := by
  refine ⟨fun d hd => ?_, h.visible ▸ hf.ordered⟩
  rw [h.visible] at hd
  rw [h.locals]
  exact hf.names d hd

theorem Stays.view (h : f.Stays g) : g.view = f.view := by
  rw [FunctionScope.view, FunctionScope.view, h.blocks, h.locals]

theorem visible_declare {block : List (String × Nat)} {outer : List (List (String × Nat))}
    (hb : f.blocks = block :: outer) (name : String) :
    (f.declare name).visible = (name, f.locals.length) :: f.visible := by
  simp [FunctionScope.visible, FunctionScope.declare, hb]

/-- A declaration is visible in the innermost block, with a slot of its name. -/
theorem Named.declare (hf : f.Named) (hbounded : f.SlotsBounded) (name : String) :
    (f.declare name).Named := by
  cases hb : f.blocks with
  | nil =>
    have hnone : (f.declare name).visible = [] := by
      simp [FunctionScope.visible, FunctionScope.declare, hb]
    refine ⟨fun d hd => ?_, hnone ▸ .nil⟩
    rw [hnone] at hd
    cases hd
  | cons block outer =>
    have hvisible := visible_declare hb name
    refine ⟨fun d hd => ?_, hvisible ▸ .cons hbounded hf.ordered⟩
    rw [hvisible] at hd
    change (f.locals ++ [name])[d.2]? = some d.1
    rcases List.mem_cons.1 hd with rfl | hd
    · exact List.getElem?_concat_length
    · rw [List.getElem?_append_left (hbounded d hd)]
      exact hf.names d hd

theorem Named.pushBlock (hf : f.Named) : f.pushBlock.Named := ⟨hf.names, hf.ordered⟩

theorem Named.popBlock (hf : f.Named) : f.popBlock.Named := by
  have hsuffix : f.popBlock.visible <:+ f.visible := by
    cases hb : f.blocks with
    | nil => simp [FunctionScope.visible, FunctionScope.popBlock, hb]
    | cons block outer =>
      rw [FunctionScope.visible, FunctionScope.visible, FunctionScope.popBlock, hb, List.tail_cons,
        List.flatten_cons]
      exact List.suffix_append _ _
  exact ⟨fun d hd => hf.names d (hsuffix.subset hd), hf.ordered.sublist hsuffix.sublist⟩

end FunctionScope

namespace ScopeStack

open FunctionScope

variable {s t u : ScopeStack} {added added' : Visible}

/-! ## Captures -/

/-- A function captures variables, under their names, that are what these names stand for in the
function around it. -/
def CapturesNamed (f g : FunctionScope) : Prop :=
  ∀ u ∈ f.upvalues, u.2.name = u.1 ∧ u.2.isVariable = true ∧ g.place.Names u.2

/-- Functions, innermost first, that capture variables of the functions around them. -/
def Linked : List FunctionScope → Prop
  | [] => True
  | [_] => True
  | f :: g :: outer => CapturesNamed f g ∧ Linked (g :: outer)

theorem CapturesNamed.mono {f g g' : FunctionScope} (h : CapturesNamed f g) (hg : g.Stays g') :
    CapturesNamed f g' := by
  intro u hu
  obtain ⟨hname, hvariable, hnames⟩ := h u hu
  exact ⟨hname, hvariable, hg.names hnames⟩

/-- What a function captures matters, and nothing else of the innermost one. -/
theorem Linked.congr {f f' : FunctionScope} {outer : List FunctionScope}
    (h : Linked (f :: outer)) (hf : f'.upvalues = f.upvalues) : Linked (f' :: outer) := by
  cases outer with
  | nil => trivial
  | cons g outer => exact ⟨fun u hu => h.1 u (hf ▸ hu), h.2⟩

theorem Linked.tail {f : FunctionScope} {outer : List FunctionScope} (h : Linked (f :: outer)) :
    Linked outer := by
  cases outer with
  | nil => trivial
  | cons g outer => exact h.2

/-- The captures of the innermost function are what they were when the functions around it stay. -/
theorem Linked.of_stays {f : FunctionScope} {outer outer' : List FunctionScope}
    (h : Linked (f :: outer)) (hstays : List.Forall₂ FunctionScope.Stays outer outer')
    (hlinked : Linked outer') : Linked (f :: outer') := by
  cases hstays with
  | nil => trivial
  | cons hg _ => exact ⟨h.1.mono hg, hlinked⟩

/-- What resolution in the functions does: they stay, but for new captures, and the answer is what the
name stands for. -/
structure Answers (name : String) (fs : List FunctionScope) (answer : Option Symbol × List FunctionScope) :
    Prop where
  stays : List.Forall₂ FunctionScope.Stays fs answer.2
  linked : Linked answer.2
  found : ∀ symbol, answer.1 = some symbol → symbol.name = name ∧ symbol.isVariable = true ∧
    ∃ f outer, answer.2 = f :: outer ∧ f.place.Names symbol

theorem forall₂_stays_refl (fs : List FunctionScope) : List.Forall₂ FunctionScope.Stays fs fs :=
  List.forall₂_same.2 fun f _ => .refl f

theorem answers_resolveIn (name : String) : ∀ fs : List FunctionScope, Linked fs →
    Answers name fs (resolveIn name fs)
  | [], _ => by
    refine ⟨.nil, trivial, ?_⟩
    rintro symbol hsymbol
    cases hsymbol
  | f :: outer, h => by
    rw [resolveIn]
    split
    · next slot hslot =>
      refine ⟨forall₂_stays_refl _, h, ?_⟩
      rintro symbol hsymbol
      cases hsymbol
      exact ⟨rfl, rfl, f, outer, rfl, hslot⟩
    · next hlocal =>
      split
      · next i hi =>
        obtain ⟨c, hc⟩ := getElem?_of_findUpvalue? hi
        refine ⟨forall₂_stays_refl _, h, ?_⟩
        rintro symbol hsymbol
        cases hsymbol
        refine ⟨rfl, rfl, f, outer, rfl, hlocal, ?_⟩
        change (f.upvalues.map (·.1))[i]? = some name
        rw [List.getElem?_map, hc]
        rfl
      · next hupvalue =>
        obtain ⟨hstays, hlinked, hfound⟩ := answers_resolveIn name outer h.tail
        split
        · next capture outer' hin =>
          rw [hin] at hstays hlinked hfound
          obtain ⟨hname, hvariable, g', rest', rfl, hnames⟩ := hfound capture rfl
          have hadd : f.Stays (f.addUpvalue name capture) := ⟨rfl, rfl, List.prefix_append _ _⟩
          refine ⟨.cons hadd hstays, ?_, ?_⟩
          · -- the captures that were there are still what they were, and the new one is found
            cases hstays with
            | cons hg hrest =>
              refine ⟨fun u hu => ?_, hlinked⟩
              rcases List.mem_append.1 hu with hu | hu
              · exact (h.1.mono hg) u hu
              · cases List.mem_singleton.1 hu
                exact ⟨hname, hvariable, hnames⟩
          · rintro symbol hsymbol
            cases hsymbol
            refine ⟨rfl, rfl, _, _, rfl, hlocal, ?_⟩
            change ((f.upvalues ++ [(name, capture)]).map (·.1))[f.upvalues.length]? = some name
            simp
        · next outer' hin =>
          rw [hin] at hstays hlinked
          refine ⟨.cons (.refl f) hstays, h.of_stays hstays hlinked, ?_⟩
          rintro symbol hsymbol
          cases hsymbol

/-! ## Orderly scopes -/

/-- Scopes of open functions with open blocks that capture what their names stand for. The outermost one
captures the environment. -/
structure Orderly (s : ScopeStack) : Prop where
  bounded : s.Bounded
  blocks : ∀ f ∈ s.functions, f.blocks ≠ []
  linked : Linked s.functions
  named : ∀ f ∈ s.functions, f.Named
  sound : Sound true s.functions

/-- The scopes of one moment, seen from a later one in the code of the same function: some more is
declared in the innermost block. -/
structure Opens (s t : ScopeStack) (added : Visible) : Prop where
  blocks : ∃ b bs, s.current.blocks = b :: bs ∧ t.current.blocks = (added ++ b) :: bs
  slots : s.current.locals <+: t.current.locals
  captures : s.current.upvalues <+: t.current.upvalues
  outer : List.Forall₂ FunctionScope.Stays s.functions.tail t.functions.tail

theorem Orderly.functions_eq (h : s.Orderly) : s.functions = s.current :: s.functions.tail := by
  obtain ⟨fs⟩ := s
  cases fs with
  | nil => exact absurd rfl h.bounded.1
  | cons f outer => rfl

theorem Orderly.exists_block (h : s.Orderly) : ∃ b bs, s.current.blocks = b :: bs := by
  have hmem : s.current ∈ s.functions := h.functions_eq ▸ List.mem_cons_self
  exact List.exists_cons_of_ne_nil (h.blocks _ hmem)

/-- The slots of visible declarations have been announced. -/
theorem Orderly.slot_lt (h : s.Orderly) : ∀ d ∈ s.current.visible, d.2 < s.nextSlot := by
  have hbounded := h.bounded.2
  rw [h.functions_eq] at hbounded
  exact hbounded.1

theorem Orderly.start : (ScopeStack.start true).Orderly := by
  refine ⟨.start true, fun f hf => ?_, trivial, fun f hf => ?_, (Agrees.start true).sound⟩
  · obtain rfl := List.mem_singleton.1 hf
    simp [FunctionScope.start, FunctionScope.addUpvalue]
  · obtain rfl := List.mem_singleton.1 hf
    exact ⟨fun d hd => absurd hd List.not_mem_nil, .nil⟩

theorem Opens.refl (h : s.Orderly) : s.Opens s [] := by
  obtain ⟨b, bs, hb⟩ := h.exists_block
  exact ⟨⟨b, bs, hb, hb⟩, List.prefix_refl _, List.prefix_refl _, forall₂_stays_refl _⟩

theorem forall₂_stays_trans : ∀ {fs gs hs : List FunctionScope},
    List.Forall₂ FunctionScope.Stays fs gs → List.Forall₂ FunctionScope.Stays gs hs →
      List.Forall₂ FunctionScope.Stays fs hs
  | _, _, _, .nil, .nil => .nil
  | _, _, _, .cons h₁ t₁, .cons h₂ t₂ => .cons (h₁.trans h₂) (forall₂_stays_trans t₁ t₂)

theorem Opens.trans (h₁ : s.Opens t added) (h₂ : t.Opens u added') : s.Opens u (added' ++ added) := by
  obtain ⟨b, bs, hb, hb'⟩ := h₁.blocks
  obtain ⟨c, cs, hc, hc'⟩ := h₂.blocks
  rw [hb'] at hc
  cases hc
  refine ⟨⟨b, bs, hb, ?_⟩, h₁.slots.trans h₂.slots, h₁.captures.trans h₂.captures,
    forall₂_stays_trans h₁.outer h₂.outer⟩
  rw [hc', List.append_assoc]

theorem Opens.visible (h : s.Opens t added) : t.current.visible = added ++ s.current.visible := by
  obtain ⟨b, bs, hb, hb'⟩ := h.blocks
  simp only [FunctionScope.visible, hb, hb', List.flatten_cons, List.append_assoc]

theorem Opens.captured (h : s.Opens t added) : s.current.captured <+: t.current.captured :=
  captured_mono h.captures

/-! ## Functions in the end -/

theorem view_of_stays : ∀ {fs gs : List FunctionScope}, List.Forall₂ FunctionScope.Stays fs gs →
    gs.map FunctionScope.view = fs.map FunctionScope.view
  | _, _, .nil => rfl
  | _, _, .cons h t => by rw [List.map_cons, List.map_cons, h.view, view_of_stays t]

end ScopeStack

/-- An outline that the innermost function may have in the end: there may be more slots and more
captures, all of names that stand for something outside of the function. -/
structure Outline.Foretells (U : Outline) (s : ScopeStack) : Prop where
  captured : s.current.captured <+: U.captured
  slots : s.current.locals <+: U.slots
  nodup : U.captured.Nodup
  bound : ∀ name ∈ U.captured,
    (Lexical.lookup true name (s.functions.tail.map FunctionScope.view)).isSome = true

namespace ScopeStack

open FunctionScope

variable {s t u : ScopeStack} {added added' : Visible}

/-- What a function is in the end has been foretold all the time. -/
theorem Opens.foretells {U : Outline} (h : s.Opens t added) (hU : U.Foretells t) : U.Foretells s where
  captured := h.captured.trans hU.captured
  slots := h.slots.trans hU.slots
  nodup := hU.nodup
  bound := by
    rw [← view_of_stays h.outer]
    exact hU.bound

/-- What a function captures stands for something outside of it. -/
theorem Orderly.foretells (h : s.Orderly) : s.current.outline.Foretells s := by
  have hsound := h.sound
  rw [h.functions_eq] at hsound
  refine ⟨List.prefix_refl _, List.prefix_refl _, hsound.1, fun name hname => ?_⟩
  obtain ⟨u, hu, rfl⟩ := List.mem_map.1 hname
  have hcaptures := hsound.2.1
  cases houter : s.functions.tail with
  | nil =>
    rw [houter] at hcaptures
    have hups : s.current.upvalues = [(envName, .defaultEnv)] := hcaptures
    rw [hups] at hu
    rw [List.mem_singleton.1 hu]
    rfl
  | cons g rest =>
    rw [houter] at hcaptures
    obtain ⟨target, htarget, -⟩ := hcaptures u hu
    rw [htarget]
    rfl

/-! ## The operations -/

theorem current_tail_modifyCurrent (h : s.functions ≠ []) (f : FunctionScope → FunctionScope) :
    (s.modifyCurrent f).current = f s.current ∧
      (s.modifyCurrent f).functions.tail = s.functions.tail := by
  obtain ⟨fs⟩ := s
  cases fs with
  | nil => exact absurd rfl h
  | cons g outer => exact ⟨rfl, rfl⟩

/-- What the innermost function captures matters, and not what it declares. -/
theorem sound_congr {env : Bool} {f f' : FunctionScope} {outer : List FunctionScope}
    (h : Sound env (f :: outer)) (hf : f'.upvalues = f.upvalues) : Sound env (f' :: outer) := by
  obtain ⟨hnodup, hcaptures, houter⟩ := h
  refine ⟨hf ▸ hnodup, ?_, houter⟩
  cases outer with
  | nil => exact hf.trans hcaptures
  | cons g rest => exact fun u hu => hcaptures u (hf ▸ hu)

/-- A change of the blocks of the innermost function. -/
theorem Orderly.modifyCurrent (h : s.Orderly) {f : FunctionScope → FunctionScope}
    (hbounded : (s.modifyCurrent f).Bounded) (hups : ∀ g : FunctionScope, (f g).upvalues = g.upvalues)
    (hblocks : (f s.current).blocks ≠ []) (hnamed : s.current.Named → (f s.current).Named) :
    (s.modifyCurrent f).Orderly := by
  obtain ⟨fs⟩ := s
  cases fs with
  | nil => exact absurd rfl h.bounded.1
  | cons g outer =>
    refine ⟨hbounded, fun k hk => ?_, h.linked.congr (hups g), fun k hk => ?_,
      sound_congr h.sound (hups g)⟩
    · rcases List.mem_cons.1 hk with rfl | hk
      · exact hblocks
      · exact h.blocks k (List.mem_cons_of_mem _ hk)
    · rcases List.mem_cons.1 hk with rfl | hk
      · exact hnamed (h.named g List.mem_cons_self)
      · exact h.named k (List.mem_cons_of_mem _ hk)

theorem Orderly.declare (h : s.Orderly) (name : String) : (s.declare name).Orderly := by
  obtain ⟨b, bs, hb⟩ := h.exists_block
  refine h.modifyCurrent (h.bounded.declare name) (fun _ => rfl) ?_ fun hnamed => ?_
  · simp [FunctionScope.declare, hb]
  · exact hnamed.declare h.slot_lt name

theorem Orderly.opens_declare (h : s.Orderly) (name : String) :
    s.Opens (s.declare name) [(name, s.nextSlot)] := by
  obtain ⟨b, bs, hb⟩ := h.exists_block
  obtain ⟨hcurrent, htail⟩ := current_tail_modifyCurrent h.bounded.1 (·.declare name)
  refine ⟨⟨b, bs, hb, ?_⟩, ?_, ?_, ?_⟩
  · rw [ScopeStack.declare, hcurrent, FunctionScope.declare, hb]
    rfl
  · rw [ScopeStack.declare, hcurrent]
    exact List.prefix_append _ _
  · rw [ScopeStack.declare, hcurrent]
    exact List.prefix_refl _
  · rw [ScopeStack.declare, htail]
    exact forall₂_stays_refl _

/-- Names that are declared one after the other take consecutive slots. -/
theorem Orderly.foldl_declare (h : s.Orderly) (names : List String) :
    (names.foldl ScopeStack.declare s).Orderly ∧
      ∃ added : Visible, s.Opens (names.foldl ScopeStack.declare s) added ∧
        added.map (·.2) = (List.range' s.nextSlot names.length).reverse := by
  induction names generalizing s with
  | nil => exact ⟨h, [], .refl h, rfl⟩
  | cons name names ih =>
    obtain ⟨hlast, added, hopens, hadded⟩ := ih (h.declare name)
    refine ⟨hlast, added ++ [(name, s.nextSlot)], (h.opens_declare name).trans hopens, ?_⟩
    have hnext : (s.declare name).nextSlot = s.nextSlot + 1 := length_locals_declare h.bounded.1 name
    rw [List.map_append, hadded, hnext, List.length_cons, List.range'_succ, List.reverse_cons]
    rfl

theorem Orderly.pushBlock (h : s.Orderly) : s.pushBlock.Orderly :=
  h.modifyCurrent h.bounded.pushBlock (fun _ => rfl) (by simp [FunctionScope.pushBlock]) (·.pushBlock)

theorem Orderly.visible_pushBlock (h : s.Orderly) :
    s.pushBlock.current.visible = s.current.visible ∧
      s.pushBlock.current.captured = s.current.captured := by
  rw [ScopeStack.pushBlock, (current_tail_modifyCurrent h.bounded.1 _).1]
  exact ⟨rfl, rfl⟩

/-- A block is left as it was entered. -/
theorem Orderly.leaveBlock (h : s.Orderly) (ht : t.Orderly) (hopens : s.pushBlock.Opens t added) :
    t.popBlock.Orderly ∧ s.Opens t.popBlock [] := by
  obtain ⟨b, bs, hb⟩ := h.exists_block
  obtain ⟨c, cs, hc, hc'⟩ := hopens.blocks
  have hpushed := current_tail_modifyCurrent h.bounded.1 (·.pushBlock)
  have hpopped := current_tail_modifyCurrent ht.bounded.1 (·.popBlock)
  rw [ScopeStack.pushBlock, hpushed.1, FunctionScope.pushBlock] at hc
  cases hc
  have hblocks : t.current.popBlock.blocks = s.current.blocks := by
    rw [FunctionScope.popBlock, hc']
    rfl
  refine ⟨ht.modifyCurrent ht.bounded.popBlock (fun _ => rfl) ?_ (·.popBlock),
    ⟨b, bs, hb, ?_⟩, ?_, ?_, ?_⟩
  · rw [hblocks, hb]
    exact List.cons_ne_nil _ _
  · rw [ScopeStack.popBlock, hpopped.1, hblocks, hb]
    rfl
  · have hslots := hopens.slots
    rw [ScopeStack.pushBlock, hpushed.1] at hslots
    rw [ScopeStack.popBlock, hpopped.1]
    exact hslots
  · have hcaptures := hopens.captures
    rw [ScopeStack.pushBlock, hpushed.1] at hcaptures
    rw [ScopeStack.popBlock, hpopped.1]
    exact hcaptures
  · have houter := hopens.outer
    rw [ScopeStack.pushBlock, hpushed.2] at houter
    rw [ScopeStack.popBlock, hpopped.2]
    exact houter

/-- Leaving a block does not change what a function is in the end. -/
theorem Orderly.foretells_popBlock {U : Outline} (h : s.Orderly) (hU : U.Foretells s.popBlock) :
    U.Foretells s := by
  obtain ⟨hcurrent, htail⟩ := current_tail_modifyCurrent h.bounded.1 (·.popBlock)
  obtain ⟨hcaptured, hslots, hnodup, hbound⟩ := hU
  rw [ScopeStack.popBlock, hcurrent] at hcaptured hslots
  rw [ScopeStack.popBlock, htail] at hbound
  exact ⟨hcaptured, hslots, hnodup, hbound⟩

theorem Orderly.pushFunction (h : s.Orderly) (isVararg : Bool) :
    (s.pushFunction isVararg).Orderly := by
  refine ⟨h.bounded.pushFunction isVararg, fun f hf => ?_, ?_, fun f hf => ?_, ?_⟩
  · rcases List.mem_cons.1 hf with rfl | hf
    · simp [FunctionScope.start]
    · exact h.blocks f hf
  · rw [ScopeStack.pushFunction, h.functions_eq]
    refine ⟨fun u hu => absurd hu List.not_mem_nil, ?_⟩
    rw [← h.functions_eq]
    exact h.linked
  · rcases List.mem_cons.1 hf with rfl | hf
    · exact ⟨fun d hd => absurd hd List.not_mem_nil, .nil⟩
    · exact h.named f hf
  · refine ⟨List.nodup_nil, ?_, h.sound⟩
    rw [h.functions_eq]
    exact fun u hu => absurd hu List.not_mem_nil

/-- A function is left as it was entered, but for captures, and what it captures is what the names
stand for around it. -/
theorem Orderly.leaveFunction {isVararg : Bool} (h : s.Orderly) (ht : t.Orderly)
    (hopens : (s.pushFunction isVararg).Opens t added) :
    t.popFunction.Orderly ∧ s.Opens t.popFunction [] ∧
      CapturesNamed t.current t.popFunction.current := by
  have houter : List.Forall₂ FunctionScope.Stays s.functions t.functions.tail := hopens.outer
  have hfunctions := ht.functions_eq
  have hbounded := ht.bounded.2
  have hlinked := ht.linked
  have hsound := ht.sound
  rw [hfunctions] at hbounded hlinked hsound
  rw [h.functions_eq] at houter
  generalize htail : t.functions.tail = gs at houter hbounded hlinked hsound
  cases houter with
  | @cons _ g _ outer hstays hrest =>
    obtain ⟨b, bs, hb⟩ := h.exists_block
    have hcurrent : t.popFunction.current = g := by
      rw [ScopeStack.popFunction, htail]
      rfl
    refine ⟨⟨⟨?_, ?_⟩, ?_, ?_, ?_, ?_⟩, ⟨⟨b, bs, hb, ?_⟩, ?_, ?_, ?_⟩, ?_⟩
    · rw [ScopeStack.popFunction, htail]
      exact List.cons_ne_nil _ _
    · rw [ScopeStack.popFunction, htail]
      exact hbounded.2.2
    · intro k hk
      refine ht.blocks k (List.mem_of_mem_tail hk)
    · rw [ScopeStack.popFunction, htail]
      exact hlinked.2
    · intro k hk
      exact ht.named k (List.mem_of_mem_tail hk)
    · rw [ScopeStack.popFunction, htail]
      exact hsound.2.2
    · exact (congrArg FunctionScope.blocks hcurrent).trans (hstays.blocks.trans hb)
    · have hlocals : t.popFunction.current.locals = _ := hcurrent.symm ▸ hstays.locals
      exact hlocals ▸ List.prefix_refl _
    · rw [hcurrent]
      exact hstays.captures
    · rw [ScopeStack.popFunction, htail]
      exact hrest
    · rw [hcurrent]
      exact hlinked.1

/-! ## Resolution -/

/-- A name resolves to what it stands for, or to a field of what the environment stands for; functions
may have captured more. -/
theorem Orderly.resolve (h : s.Orderly) (name : String) :
    (s.resolve name).2.Orderly ∧ s.Opens (s.resolve name).2 [] ∧
      (s.resolve name).2.current.place.Names (s.resolve name).1 := by
  have hkept : (s.resolve name).2.Bounded ∧ Sound true (s.resolve name).2.functions :=
    ⟨(resolve_bounded h.bounded name).1, (resolve_spec h.bounded.1 h.sound name).2.2.1⟩
  have horderly : ∀ fs : List FunctionScope, List.Forall₂ FunctionScope.Stays s.functions fs →
      Linked fs → ScopeStack.Bounded ⟨fs⟩ ∧ Sound true fs →
        ScopeStack.Orderly ⟨fs⟩ ∧ s.Opens ⟨fs⟩ [] := by
    intro fs hstays hlinked hkept
    have hfunctions := h.functions_eq
    obtain ⟨b, bs, hb⟩ := h.exists_block
    have hfrom : ∀ f ∈ fs, ∃ g ∈ s.functions, g.Stays f := by
      intro f hf
      obtain ⟨i, hi, rfl⟩ := List.getElem_of_mem hf
      have hi' : i < s.functions.length := hstays.length_eq ▸ hi
      exact ⟨_, List.getElem_mem hi', hstays.get hi' hi⟩
    refine ⟨⟨hkept.1, fun f hf => ?_, hlinked, fun f hf => ?_, hkept.2⟩, ?_⟩
    · obtain ⟨g, hg, hstay⟩ := hfrom f hf
      rw [hstay.blocks]
      exact h.blocks g hg
    · obtain ⟨g, hg, hstay⟩ := hfrom f hf
      exact hstay.named (h.named g hg)
    · rw [hfunctions] at hstays
      cases hstays with
      | cons hhead hrest =>
        refine ⟨⟨b, bs, hb, hhead.blocks.trans hb⟩, ?_, hhead.captures, hrest⟩
        exact hhead.locals.symm ▸ List.prefix_refl _
  have hin := answers_resolveIn name s.functions h.linked
  revert hkept
  unfold ScopeStack.resolve
  split
  · next symbol fs heq =>
    rw [heq] at hin
    intro hkept
    obtain ⟨-, -, f, outer, rfl, hnames⟩ := hin.found symbol rfl
    obtain ⟨horder, hopens⟩ := horderly _ hin.stays hin.linked hkept
    exact ⟨horder, hopens, hnames⟩
  · next fs heq =>
    rw [heq] at hin
    split
    · intro hkept
      obtain ⟨horder, hopens⟩ := horderly _ hin.stays hin.linked hkept
      exact ⟨horder, hopens, trivial⟩
    · have henv := answers_resolveIn envName fs hin.linked
      split
      · next env fs' heq' =>
        rw [heq'] at henv
        intro hkept
        obtain ⟨-, -, f, outer, rfl, hnames⟩ := henv.found env rfl
        obtain ⟨horder, hopens⟩ :=
          horderly _ (forall₂_stays_trans hin.stays henv.stays) henv.linked hkept
        exact ⟨horder, hopens, hnames⟩
      · next fs' heq' =>
        rw [heq'] at henv
        intro hkept
        obtain ⟨horder, hopens⟩ :=
          horderly _ (forall₂_stays_trans hin.stays henv.stays) henv.linked hkept
        exact ⟨horder, hopens, trivial⟩

end ScopeStack

/-! ## The course of a compilation -/

/-- Something that happens in the course of a compilation: an operation on scopes, or an instruction. -/
inductive Course.Step where
  | scope (op : ScopeOp)
  | instruction

/-- What happens in the course of a compilation. -/
abbrev Course := List Course.Step

namespace Course

/-- The scopes at the end. -/
def after (s : ScopeStack) : Course → ScopeStack
  | [] => s
  | .scope op :: rest => after (s.apply op) rest
  | .instruction :: rest => after s rest

/-- The scopes at each instruction. -/
def notes (s : ScopeStack) : Course → List ScopeStack
  | [] => []
  | .scope op :: rest => notes (s.apply op) rest
  | .instruction :: rest => s :: notes s rest

variable (s : ScopeStack) (c c' : Course)

@[simp] theorem after_append : after s (c ++ c') = after (after s c) c' := by
  induction c generalizing s with
  | nil => rfl
  | cons step rest ih =>
    cases step with
    | scope op => exact ih (s.apply op)
    | instruction => exact ih s

@[simp] theorem notes_append : notes s (c ++ c') = notes s c ++ notes (after s c) c' := by
  induction c generalizing s with
  | nil => rfl
  | cons step rest ih =>
    cases step with
    | scope op => exact ih (s.apply op)
    | instruction => exact congrArg (s :: ·) (ih s)

/-- Scopes are given to the addresses from `start` on. -/
def Noted (S : Nat → ScopeStack) (start : Nat) (notes : List ScopeStack) : Prop :=
  ∀ i scopes, notes[i]? = some scopes → S (start + i) = scopes

theorem Noted.left {S : Nat → ScopeStack} {start : Nat} {a b : List ScopeStack}
    (h : Noted S start (a ++ b)) : Noted S start a := by
  intro i scopes hi
  refine h i scopes ?_
  rw [List.getElem?_append_left (List.getElem?_eq_some_iff.1 hi).1]
  exact hi

theorem Noted.right {S : Nat → ScopeStack} {start : Nat} {a b : List ScopeStack}
    (h : Noted S start (a ++ b)) : Noted S (start + a.length) b := by
  intro i scopes hi
  rw [Nat.add_assoc]
  refine h _ scopes ?_
  rw [List.getElem?_append_right (Nat.le_add_right _ _), Nat.add_sub_cancel_left]
  exact hi

/-! ## Trees -/

def pushFunction (isVararg : Bool) : Step := .scope (.pushFunction isVararg)

def popFunction : Step := .scope .popFunction

def pushBlock : Step := .scope .pushBlock

def popBlock : Step := .scope .popBlock

def declare (name : String) : Step := .scope (.declare name)

def resolve (name : String) : Step := .scope (.resolve name)

/-- An expression may be cut down to one value. -/
def scalarAfter (e : Expr) : Course := if e.isMultiValue then [.instruction] else []

/-- Several values are returned as one. -/
def tupled : List Expr → Course
  | [] | [_] => []
  | _ => [.instruction]

/-- Names are bound one after the other. -/
def bindNames : List String → Course
  | [] => []
  | name :: names => .instruction :: declare name :: bindNames names

/-- The fields behind the name of a function statement. -/
def assignField : List String → Course
  | [] => []
  | _ :: rest => .instruction :: .instruction :: assignField rest

mutual

def block : List Stat → Course
  | [] => []
  | st :: rest => stat st ++ block rest

def stat : Stat → Course
  | .local names values _ => exprs values ++ [.instruction] ++ bindNames names ++ [.instruction]
  | .assign targets values _ =>
    exprs values ++ [.instruction] ++ assignTo targets ++ [.instruction]
  | .call e _ => expr e ++ [.instruction]
  | .do body _ => pushBlock :: block body ++ [popBlock]
  | .while condition body _ _ =>
    expr condition ++ scalarAfter condition ++ [.instruction] ++
      (pushBlock :: block body ++ [popBlock]) ++ [.instruction]
  | .repeat body condition _ =>
    pushBlock :: (block body ++ (expr condition ++ scalarAfter condition) ++ [.instruction]) ++
      [popBlock]
  | .if branches _ => clauses branches
  | .numericFor var first limit step body _ _ =>
    expr first ++ scalarAfter first ++ expr limit ++ scalarAfter limit ++ expr step ++
      scalarAfter step ++ [.instruction] ++ [.instruction] ++
      (pushBlock :: ([.instruction, declare var] ++ block body) ++ [popBlock]) ++
      [.instruction] ++ [.instruction] ++ [.instruction]
  | .genericFor names values body _ _ =>
    exprs values ++ [.instruction] ++ [.instruction] ++ List.replicate 4 .instruction ++ [.instruction] ++
      (pushBlock :: (bindNames names ++ [.instruction] ++ block body) ++ [popBlock]) ++
      [.instruction] ++ [.instruction]
  | .function target keys body _ =>
    function body ++ ([resolve target, .instruction] ++ assignField keys) ++ [.instruction]
  | .localFunction name body _ =>
    [.instruction] ++ [.instruction, declare name] ++ [.instruction] ++ function body ++ [.instruction] ++
      [.instruction]
  | .return values _ =>
    exprs values ++ tupled values ++ [.instruction]
  | .break _ => [.instruction]

def clauses : Branches → Course
  | .done => []
  | .otherwise body => pushBlock :: block body ++ [popBlock]
  | .clause condition body _ rest =>
    expr condition ++ scalarAfter condition ++ [.instruction] ++
      (pushBlock :: block body ++ [popBlock]) ++
      match rest with
      | .done => []
      | rest => [.instruction] ++ clauses rest

def assignTo : List Expr → Course
  | [] => []
  | .name n :: rest => [resolve n, .instruction] ++ assignTo rest
  | .index object key :: rest =>
    expr object ++ scalarAfter object ++ expr key ++ scalarAfter key ++ [.instruction] ++ assignTo rest
  | _ :: _ => []

/-- Control passes over a function, whose code lies between its beginning and its return, and comes to the
closure that is made of it. -/
def function : FunctionBody → Course
  | .mk _ params isVararg body _ _ =>
    [.instruction] ++ (pushFunction isVararg :: ([.instruction] ++ [.instruction] ++
      (.instruction :: params.map declare) ++ block body ++ [.instruction]) ++ [popFunction]) ++
      [.instruction]

def exprs : List Expr → Course
  | [] => []
  | [e] => expr e
  | e :: e' :: rest => expr e ++ scalarAfter e ++ exprs (e' :: rest)

def expr : Expr → Course
  | .nil | .boolean _ | .number _ | .string _ | .varargs => [.instruction]
  | .function body => function body
  | .table fs => [.instruction] ++ fields fs
  | .binary _ left right =>
    expr left ++ scalarAfter left ++ expr right ++ scalarAfter right ++ [.instruction]
  | .logical _ left right =>
    expr left ++ scalarAfter left ++ [.instruction] ++ expr right ++ scalarAfter right
  | .unary _ operand => expr operand ++ scalarAfter operand ++ [.instruction]
  | .name n => [resolve n, .instruction]
  | .index object key =>
    expr object ++ scalarAfter object ++ expr key ++ scalarAfter key ++ [.instruction]
  | .call f args => expr f ++ scalarAfter f ++ exprs args ++ [.instruction]
  | .methodCall object _ args =>
    expr object ++ scalarAfter object ++ [.instruction] ++ exprs args ++ [.instruction]
  | .paren e => expr e ++ scalarAfter e

def fields : List Field → Course
  | [] => []
  | .positional value :: rest =>
    expr value ++ (if rest.isEmpty && value.isMultiValue then [] else scalarAfter value) ++
      [.instruction] ++ fields rest
  | .named _ value :: rest =>
    [.instruction] ++ expr value ++ scalarAfter value ++ [.instruction] ++ fields rest
  | .keyed key value :: rest =>
    expr key ++ scalarAfter key ++ expr value ++ scalarAfter value ++ [.instruction] ++ fields rest

end

theorem stat_if (branches : Branches) (extent : Extent) :
    stat (.if branches extent) = clauses branches := by
  rw [stat]

theorem clauses_otherwise (body : List Stat) :
    clauses (.otherwise body) = pushBlock :: block body ++ [popBlock] := by
  rw [clauses]

/-- A whole chunk. -/
def chunk (body : Block) : Course :=
  [.instruction] ++ [.instruction] ++ [.instruction] ++ block body ++ [.instruction]

end Course

end LuaMachine
