import LuaMachine.Proofs.Engine.Versions

/-!
# What instances were given

An engine records which version of a function an instance has. This module keeps account of where
the records come from: `Engine.Course h ds h'` leads from one state of an engine to another by what
the engine does in instances, `ds` with the latest first. It compiles the definition of a function
there, and it clears the global variable and calls the chunk, which defines the function or fails.
Each link of a course is the very transition of the world that the compilation or the call makes, so
nothing is told that did not happen between the two states.

Main statements: a version is recorded only where a body with that digest was compiled and defined
before (`Course.recorded`), and what making an instance (`tells_newInstance`), calling a function by
its name (`tells_refresh`) and loading one (`tells_loadFunction`) do in instances.
-/

namespace LuaMachine

namespace Engine

open Hosting

/-- How far an engine came with the definition of a function in an instance. -/
inductive Outcome where
  /-- it was compiled to a chunk -/
  | compiled (chunk : Value)
  /-- the global was cleared and the chunk called, which ended well; the version was recorded -/
  | defined (chunk : Value)
  /-- the global was cleared and the chunk called, which failed; the record was erased -/
  | refused (chunk : Value) (err : ScriptError)
  /-- compiling or calling stopped, and the record was left as it was -/
  | abandoned (s : Stop)

/-- Something that an engine did in an instance about a function. -/
structure Deed where
  script : ScriptId
  function : CachedFunction
  outcome : Outcome

/-- From one state of an engine to another by what it does in instances, the latest deed first. A
chunk that is called was compiled in the same instance from the text of the same function before. -/
inductive Course (h : Host) : List Deed → Host → Prop
  | start : Course h [] h
  | compiled {ds h₁ id f chunk h₂} (hcourse : Course h ds h₁)
    (hload : onScript id (Exec.loadString f.definition none f.name) h₁ = .ok chunk h₂) :
    Course h (⟨id, f, .compiled chunk⟩ :: ds) h₂
  | defined {ds h₁ id f chunk h₂ v h₃} (hcourse : Course h ds h₁)
    (hcompiled : ⟨id, f, .compiled chunk⟩ ∈ ds)
    (hclear : onScript id (Script.setGlobal f.name .nil) h₁ = .ok () h₂)
    (hcall : onScript id (Script.call chunk []) h₂ = .ok v h₃) :
    Course h (⟨id, f, .defined chunk⟩ :: ds)
      { h₃ with engine := h₃.engine.setVersion id f.name f.hash }
  | refused {ds h₁ id f chunk h₂ err h₃} (hcourse : Course h ds h₁)
    (hcompiled : ⟨id, f, .compiled chunk⟩ ∈ ds)
    (hclear : onScript id (Script.setGlobal f.name .nil) h₁ = .ok () h₂)
    (hcall : onScript id (Script.call chunk []) h₂ = .error (.error err) h₃) :
    Course h (⟨id, f, .refused chunk err⟩ :: ds)
      { h₃ with engine := h₃.engine.eraseVersion id f.name }
  | uncompiled {ds h₁ id f s h₂} (hcourse : Course h ds h₁)
    (hload : onScript id (Exec.loadString f.definition none f.name) h₁ = .error s h₂) :
    Course h (⟨id, f, .abandoned s⟩ :: ds) h₂
  | abandoned {ds h₁ id f chunk h₂ s h₃} (hcourse : Course h ds h₁)
    (hcompiled : ⟨id, f, .compiled chunk⟩ ∈ ds)
    (hclear : onScript id (Script.setGlobal f.name .nil) h₁ = .ok () h₂)
    (hcall : onScript id (Script.call chunk []) h₂ = .error s h₃) :
    Course h (⟨id, f, .abandoned s⟩ :: ds) h₃
  /-- an instance is made, without functions -/
  | setUp {ds h₁ config sink objects id h₂} (hcourse : Course h ds h₁)
    (hsetUp : Engine.setUp config sink objects h₁ = .ok id h₂) : Course h ds h₂
  | noSetUp {ds h₁ config sink objects s h₂} (hcourse : Course h ds h₁)
    (hsetUp : Engine.setUp config sink objects h₁ = .error s h₂) : Course h ds h₂
  /-- an engine changes what else it keeps -/
  | book {ds h₁ h₂} (hcourse : Course h ds h₁) (hversions : h₂.engine.versions = h₁.engine.versions)
    (hworld : h₂.world = h₁.world) : Course h ds h₂

theorem version?_congr {e e' : Engine} (h : e'.versions = e.versions) (id : ScriptId)
    (name : String) : e'.version? id name = e.version? id name := by
  unfold version?
  rw [h]

theorem engine_of_onScript {α : Type} {id : ScriptId} {x : Exec α} {h h' : Host} {a : α}
    (hok : onScript id x h = .ok a h') : h'.engine = h.engine :=
  (leaves_inWorld _ h).ok hok

theorem engine_of_onScript_error {α : Type} {id : ScriptId} {x : Exec α} {h h' : Host} {s : Stop}
    (herror : onScript id x h = .error s h') : h'.engine = h.engine :=
  (leaves_inWorld _ h).error herror

/-! ## What an instance has -/

/-- A deed leaves the record of a function in an instance as it is. -/
def Deed.KeepsRecord (id : ScriptId) (f : CachedFunction) (d : Deed) : Prop :=
  d.script = id → d.function.name = f.name → match d.outcome with
    | .compiled _ | .abandoned _ => True
    | .defined _ | .refused _ _ => False

/-- Also, the function is not cleared for another version. -/
def Deed.Spares (id : ScriptId) (f : CachedFunction) (d : Deed) : Prop :=
  d.KeepsRecord id f ∧ (d.script = id → d.function.name = f.name → ∀ s, d.outcome = .abandoned s →
    d.function.hash = f.hash)

/-- In an instance a body with the digest of a function was compiled, and defined under its name, and
nothing but what `P` allows was done since. -/
def DefinedSince (P : Deed → Prop) (ds : List Deed) (id : ScriptId) (f : CachedFunction) : Prop :=
  ∃ newer older code chunk, (CachedFunction.ofSource f.name code).hash = f.hash ∧
    ds = newer ++ ⟨id, .ofSource f.name code, .defined chunk⟩ :: older ∧
    ⟨id, .ofSource f.name code, .compiled chunk⟩ ∈ older ∧ ∀ d ∈ newer, P d

/-- In an instance a function was compiled and its definition failed, and nothing but what `P` allows
was done since. -/
def RefusedSince (P : Deed → Prop) (ds : List Deed) (id : ScriptId) (f : CachedFunction) : Prop :=
  ∃ newer older chunk err, ds = newer ++ ⟨id, f, .refused chunk err⟩ :: older ∧
    ⟨id, f, .compiled chunk⟩ ∈ older ∧ ∀ d ∈ newer, P d

/-- An instance has the version of a function, and the latest that was done there about the name was
that a body with its digest was defined. -/
def Has (e : Engine) (ds : List Deed) (id : ScriptId) (f : CachedFunction) : Prop :=
  e.version? id f.name = some f.hash ∧ DefinedSince (·.Spares id f) ds id f

/-- An instance has the version of a function, or it has none since the definition failed there. -/
def Settled (e : Engine) (ds : List Deed) (id : ScriptId) (f : CachedFunction) : Prop :=
  e.Has ds id f ∨ e.version? id f.name = none ∧ RefusedSince (·.Spares id f) ds id f

/-- A record in an instance is of a body that was defined there. -/
def Recorded (e : Engine) (ds : List Deed) (id : ScriptId) (f : CachedFunction) : Prop :=
  e.version? id f.name = some f.hash → DefinedSince (·.KeepsRecord id f) ds id f

variable {e e' : Engine} {d : Deed} {ds ds' : List Deed} {id : ScriptId} {f g : CachedFunction}
  {h h' h₀ : Host} {P P' : Deed → Prop}

theorem DefinedSince.mono (h : DefinedSince P ds id f) (hP : ∀ d, P d → P' d) :
    DefinedSince P' ds id f := by
  obtain ⟨newer, older, code, chunk, hhash, hds, hcompiled, hnewer⟩ := h
  exact ⟨newer, older, code, chunk, hhash, hds, hcompiled, fun d hd => hP d (hnewer d hd)⟩

theorem DefinedSince.cons (h : DefinedSince P ds id f) (hd : P d) : DefinedSince P (d :: ds) id f := by
  obtain ⟨newer, older, code, chunk, hhash, rfl, hcompiled, hnewer⟩ := h
  exact ⟨d :: newer, older, code, chunk, hhash, rfl, hcompiled, List.forall_mem_cons.2 ⟨hd, hnewer⟩⟩

theorem RefusedSince.cons (h : RefusedSince P ds id f) (hd : P d) : RefusedSince P (d :: ds) id f := by
  obtain ⟨newer, older, chunk, err, rfl, hcompiled, hnewer⟩ := h
  exact ⟨d :: newer, older, chunk, err, rfl, hcompiled, List.forall_mem_cons.2 ⟨hd, hnewer⟩⟩

theorem DefinedSince.append (h : DefinedSince P ds id f) (older : List Deed) :
    DefinedSince P (ds ++ older) id f := by
  obtain ⟨newer, older', code, chunk, hhash, rfl, hcompiled, hnewer⟩ := h
  exact ⟨newer, older' ++ older, code, chunk, hhash, by simp, List.mem_append_left _ hcompiled, hnewer⟩

theorem Has.of_eq (h : e.Has ds id g) (hname : g.name = f.name) (hhash : g.hash = f.hash) :
    e.Has ds id f := by
  unfold Has DefinedSince Deed.Spares Deed.KeepsRecord at h ⊢
  rwa [← hname, ← hhash]

theorem Has.append (h : e.Has ds id f) (older : List Deed) : e.Has (ds ++ older) id f :=
  ⟨h.1, h.2.append older⟩

/-- A function that is defined now. -/
theorem definedSince_now {chunk : Value} (hname : g.name = f.name) (hhash : g.hash = f.hash)
    (hright : g = .ofSource g.name g.code) (hcompiled : ⟨id, g, .compiled chunk⟩ ∈ ds) :
    DefinedSince P (⟨id, g, .defined chunk⟩ :: ds) id f := by
  have hg : g = .ofSource f.name g.code := hname ▸ hright
  refine ⟨[], ds, g.code, chunk, ?_, ?_, ?_, by simp⟩
  · rw [← hg, hhash]
  · rw [← hg]
    rfl
  · rwa [← hg]

/-! ## What deeds change -/

/-- The version that is recorded for an instance after a deed. -/
def Deed.version? (d : Deed) (e : Engine) (id : ScriptId) (name : String) : Option String :=
  if (id, name) = (d.script, d.function.name) then match d.outcome with
    | .defined _ => some d.function.hash
    | .refused _ _ => none
    | .compiled _ | .abandoned _ => e.version? id name
  else e.version? id name

/-- A deed is done after others: it changes the record, and a chunk that is defined was compiled. -/
structure Deed.Follows (d : Deed) (ds : List Deed) (e e' : Engine) : Prop where
  version : ∀ id name, e'.version? id name = d.version? e id name
  compiled : ∀ chunk, d.outcome = .defined chunk → ⟨d.script, d.function, .compiled chunk⟩ ∈ ds

theorem Deed.follows_same (hsame : e' = e) (hdefined : ∀ chunk, d.outcome ≠ .defined chunk)
    (hrefused : ∀ chunk err, d.outcome ≠ .refused chunk err) : d.Follows ds e e' := by
  refine ⟨fun id name => ?_, fun chunk h => absurd h (hdefined chunk)⟩
  unfold Deed.version?
  split
  · split
    · next chunk h => exact absurd h (hdefined chunk)
    · next chunk err h => exact absurd h (hrefused chunk err)
    · rw [hsame]
    · rw [hsame]
  · rw [hsame]

/-- What every deed preserves is preserved on a course. -/
theorem Course.invariant {I : List Deed → Engine → Prop} (hcourse : Course h₀ ds h)
    (hstart : I [] h₀.engine)
    (hbook : ∀ {ds e e'}, I ds e → (∀ id name, e'.version? id name = e.version? id name) → I ds e')
    (hdeed : ∀ {d ds e e'}, I ds e → d.Follows ds e e' → I (d :: ds) e') : I ds h.engine := by
  induction hcourse with
  | start => exact hstart
  | compiled _ hload ih =>
    exact hdeed ih (Deed.follows_same (engine_of_onScript hload) nofun nofun)
  | @defined ds h₁ id f chunk h₂ v h₃ _ hcompiled hclear hcall ih =>
    refine hdeed ih ⟨fun id' name => ?_, ?_⟩
    · unfold Deed.version?
      split
      · next heq =>
        cases heq
        exact version?_setVersion_self _ _ _ _
      · next hne =>
        rw [version?_setVersion_of_ne hne, engine_of_onScript hcall, engine_of_onScript hclear]
    · rintro _ ⟨⟩
      exact hcompiled
  | @refused ds h₁ id f chunk h₂ err h₃ _ hcompiled hclear hcall ih =>
    refine hdeed ih ⟨fun id' name => ?_, nofun⟩
    unfold Deed.version?
    split
    · next heq =>
      cases heq
      exact version?_eraseVersion_self _ _ _
    · next hne =>
      rw [version?_eraseVersion_of_ne hne, engine_of_onScript_error hcall, engine_of_onScript hclear]
  | uncompiled _ hload ih =>
    exact hdeed ih (Deed.follows_same (engine_of_onScript_error hload) nofun nofun)
  | abandoned _ _ hclear hcall ih =>
    have hsame := (engine_of_onScript_error hcall).trans (engine_of_onScript hclear)
    exact hdeed ih (Deed.follows_same hsame nofun nofun)
  | setUp _ hsetUp ih => exact (leaves_setUp _ _ _ _).ok hsetUp ▸ ih
  | noSetUp _ hsetUp ih => exact (leaves_setUp _ _ _ _).error hsetUp ▸ ih
  | book _ hversions _ ih => exact hbook ih (version?_congr hversions)

/-- A deed is about a body with its right digest. -/
def Deed.Right (d : Deed) : Prop := d.function = .ofSource d.function.name d.function.code

/-- A deed about a function is about this version of it, and not a failure in an idle instance. -/
def Deed.Renews (f : CachedFunction) (d : Deed) : Prop :=
  d.function.name = f.name → d.function.hash = f.hash ∧ ∀ chunk err, d.outcome ≠ .refused chunk err

theorem Deed.version?_of_ne (hne : (id, f.name) ≠ (d.script, d.function.name)) :
    d.version? e id f.name = e.version? id f.name :=
  if_neg hne

/-- What is recorded for an instance was so before, or was defined there. -/
theorem Recorded.follows (hrecorded : e.Recorded ds id f) (hfollows : d.Follows ds' e e')
    (hds : ds' ⊆ ds) (hright : d.Right) : e'.Recorded (d :: ds) id f := by
  intro hversion
  rw [hfollows.version] at hversion
  by_cases heq : (id, f.name) = (d.script, d.function.name)
  · unfold Deed.version? at hversion
    rw [if_pos heq] at hversion
    obtain ⟨rfl, hname⟩ := Prod.mk.inj heq
    obtain ⟨id, g, outcome⟩ := d
    cases outcome with
    | compiled => exact (hrecorded hversion).cons fun _ _ => trivial
    | defined chunk =>
      exact definedSince_now hname.symm (Option.some.inj hversion) hright (hds (hfollows.compiled _ rfl))
    | refused => cases hversion
    | abandoned => exact (hrecorded hversion).cons fun _ _ => trivial
  · rw [Deed.version?_of_ne heq] at hversion
    exact (hrecorded hversion).cons fun hid hname => absurd (by rw [hid, hname]) heq

/-- What every version of a function that is recorded in some instance says goes on being so. -/
theorem Course.recorded (hcourse : Course h₀ ds' h) (hstart : h₀.engine.Recorded ds id f)
    (hright : ∀ d ∈ ds', d.Right) : h.engine.Recorded (ds' ++ ds) id f := by
  refine hcourse.invariant (I := fun ds' e => (∀ d ∈ ds', d.Right) → e.Recorded (ds' ++ ds) id f)
    (fun _ => hstart) (fun hI hsame hright hversion => hI hright (hsame _ _ ▸ hversion)) ?_ hright
  intro d ds' e e' hI hfollows hright
  obtain ⟨hd, hright⟩ := List.forall_mem_cons.1 hright
  exact (hI hright).follows hfollows (List.subset_append_left _ _) hd

theorem Settled.cons (hsettled : e.Settled ds id f)
    (hsame : e'.version? id f.name = e.version? id f.name) (hspares : d.Spares id f) :
    e'.Settled (d :: ds) id f := by
  unfold Settled Has at hsettled ⊢
  rw [hsame]
  exact hsettled.imp (fun h => ⟨h.1, h.2.cons hspares⟩) fun h => ⟨h.1, h.2.cons hspares⟩

theorem Deed.spares_of_ne (hne : (id, f.name) ≠ (d.script, d.function.name)) : d.Spares id f := by
  have hother : d.script = id → d.function.name ≠ f.name := fun hid hname => hne (by rw [hid, hname])
  exact ⟨fun hid hname => absurd hname (hother hid), fun hid hname => absurd hname (hother hid)⟩

/-- What is settled stays so when only this version is defined again, if any. -/
theorem Settled.follows (hsettled : e.Settled ds id f) (hfollows : d.Follows ds' e e')
    (hds : ds' ⊆ ds) (hright : d.Right) (hrenews : d.script = id → d.Renews f) :
    e'.Settled (d :: ds) id f := by
  have hversion := hfollows.version id f.name
  by_cases heq : (id, f.name) = (d.script, d.function.name)
  · unfold Deed.version? at hversion
    rw [if_pos heq] at hversion
    obtain ⟨rfl, hname⟩ := Prod.mk.inj heq
    obtain ⟨hhash, hrefused⟩ := hrenews rfl hname.symm
    obtain ⟨id, g, outcome⟩ := d
    cases outcome with
    | compiled => exact hsettled.cons hversion ⟨fun _ _ => trivial, nofun⟩
    | defined chunk =>
      refine .inl ⟨hversion.trans (congrArg some hhash), ?_⟩
      exact definedSince_now hname.symm hhash hright (hds (hfollows.compiled _ rfl))
    | refused chunk err => exact absurd rfl (hrefused chunk err)
    | abandoned => exact hsettled.cons hversion ⟨fun _ _ => trivial, fun _ _ _ _ => hhash⟩
  · rw [Deed.version?_of_ne heq] at hversion
    exact hsettled.cons hversion (Deed.spares_of_ne heq)

theorem Course.settled (hcourse : Course h₀ ds' h) (hstart : h₀.engine.Settled ds id f)
    (hright : ∀ d ∈ ds', d.Right) (hrenews : ∀ d ∈ ds', d.script = id → d.Renews f) :
    h.engine.Settled (ds' ++ ds) id f := by
  refine hcourse.invariant (I := fun ds' e => (∀ d ∈ ds', d.Right ∧ (d.script = id → d.Renews f)) →
    e.Settled (ds' ++ ds) id f) (fun _ => hstart) ?_ ?_ fun d hd => ⟨hright d hd, hrenews d hd⟩
  · intro ds' e e' hI hsame hall
    have hsettled := hI hall
    unfold Settled Has at hsettled ⊢
    rwa [hsame]
  · intro d ds' e e' hI hfollows hall
    obtain ⟨hd, hall⟩ := List.forall_mem_cons.1 hall
    exact (hI hall).follows hfollows (List.subset_append_left _ _) hd.1 hd.2

/-! ## What operations of an engine do -/

/-- A course from one state to another on which all deeds are as `P` says. -/
structure Told (P : Deed → Prop) (h₀ : Host) (ds : List Deed) (h : Host) : Prop where
  course : Course h₀ ds h
  all : ∀ d ∈ ds, P d

/-- What a computation does is told by a course on from `h₀`, and of that course, the value and the
engine, `Q` holds if it succeeds. -/
structure Tells {α : Type} (P : Deed → Prop) (h₀ : Host) (x : Hosting α) (h : Host)
    (Q : α → List Deed → Engine → Prop) : Prop where
  ok : ∀ {a h'}, x h = .ok a h' → ∃ ds, Told P h₀ ds h' ∧ Q a ds h'.engine
  error : ∀ {s h'}, x h = .error s h' → ∃ ds, Told P h₀ ds h'

variable {α β : Type} {x : Hosting α} {Q : α → List Deed → Engine → Prop}
  {R : β → List Deed → Engine → Prop}

theorem Told.start (h : Host) : Told P h [] h := ⟨.start, by simp⟩

theorem Told.book (ht : Told P h₀ ds h) (hversions : h'.engine.versions = h.engine.versions)
    (hworld : h'.world = h.world) : Told P h₀ ds h' :=
  ⟨ht.course.book hversions hworld, ht.all⟩

theorem Tells.of_ok {a : α} (hx : x h = .ok a h') (ht : Told P h₀ ds h') (hq : Q a ds h'.engine) :
    Tells P h₀ x h Q := by
  refine ⟨fun hok => ?_, fun herror => ?_⟩
  · rw [hx] at hok
    cases hok
    exact ⟨ds, ht, hq⟩
  · rw [hx] at herror
    cases herror

theorem Tells.of_error {s : Stop} (hx : x h = .error s h') (ht : Told P h₀ ds h') :
    Tells P h₀ x h Q := by
  refine ⟨fun hok => ?_, fun herror => ?_⟩
  · rw [hx] at hok
    cases hok
  · rw [hx] at herror
    cases herror
    exact ⟨ds, ht⟩

theorem Tells.pure {a : α} (ht : Told P h₀ ds h) (hq : Q a ds h.engine) :
    Tells P h₀ (pure a : Hosting α) h Q :=
  .of_ok rfl ht hq

theorem Tells.after {a : α} {f : α → Hosting β} (hx : x h = .ok a h')
    (hf : Tells P h₀ (f a) h' R) : Tells P h₀ (x >>= f) h R := by
  constructor
  · intro b h'' hok
    rw [bind_of_ok hx] at hok
    exact hf.ok hok
  · intro s h'' herror
    rw [bind_of_ok hx] at herror
    exact hf.error herror

theorem Tells.bind {f : α → Hosting β} (hx : Tells P h₀ x h Q)
    (hf : ∀ a ds h', x h = .ok a h' → Told P h₀ ds h' → Q a ds h'.engine → Tells P h₀ (f a) h' R) :
    Tells P h₀ (x >>= f) h R := by
  cases hx' : x h with
  | ok a h₁ =>
    obtain ⟨ds, ht, hq⟩ := hx.ok hx'
    exact .after hx' (hf a ds h₁ hx' ht hq)
  | error s h₁ =>
    obtain ⟨ds, ht⟩ := hx.error hx'
    exact .of_error (bind_of_error hx') ht

theorem Tells.engine_bind {f : Engine → Hosting β} (hf : Tells P h₀ (f h.engine) h R) :
    Tells P h₀ (engine >>= f) h R :=
  ⟨hf.ok, hf.error⟩

theorem Tells.modifyEngine_bind {g : Engine → Engine} {f : Unit → Hosting β}
    (hf : Tells P h₀ (f ()) { h with engine := g h.engine } R) :
    Tells P h₀ (modifyEngine g >>= f) h R :=
  ⟨hf.ok, hf.error⟩

/-- Something is done for each item of a list, one after the other. -/
theorem Tells.forM {f : α → Hosting Unit} {I : List α → List Deed → Engine → Prop} (as : List α)
    (hf : ∀ done a ds h', a ∈ as → Told P h₀ ds h' → I done ds h'.engine →
      Tells P h₀ (f a) h' fun _ => I (done ++ [a]))
    (ht : Told P h₀ ds h) (hI : I [] ds h.engine) : Tells P h₀ (as.forM f) h fun _ => I as := by
  suffices hall : ∀ todo done ds h', as = done ++ todo → Told P h₀ ds h' → I done ds h'.engine →
      Tells P h₀ (todo.forM f) h' fun _ => I as from hall as [] ds h rfl ht hI
  intro todo
  induction todo with
  | nil =>
    intro done ds h' has ht hdone
    rw [List.append_nil] at has
    exact .pure ht (has ▸ hdone)
  | cons a rest ih =>
    intro done ds h' has ht hdone
    change Tells P h₀ (f a >>= fun _ => rest.forM f) h' _
    have hmem : a ∈ as := has ▸ List.mem_append_right done List.mem_cons_self
    refine (hf done a ds h' hmem ht hdone).bind fun _ ds' h'' _ ht' hstep => ?_
    exact ih (done ++ [a]) ds' h'' (by rw [has, List.append_assoc]; rfl) ht' hstep

/-! ### Definitions -/

theorem tells_compile (ht : Told P h₀ ds h)
    (hP : ∀ o, (∀ chunk err, o ≠ .refused chunk err) → P ⟨id, f, o⟩) :
    Tells P h₀ (onScript id (Exec.loadString f.definition none f.name)) h
      fun chunk ds' _ => ds' = ⟨id, f, .compiled chunk⟩ :: ds := by
  cases hload : onScript id (Exec.loadString f.definition none f.name) h with
  | ok chunk h' =>
    exact .of_ok hload ⟨ht.course.compiled hload, List.forall_mem_cons.2 ⟨hP _ nofun, ht.all⟩⟩ rfl
  | error s h' =>
    exact .of_error hload ⟨ht.course.uncompiled hload, List.forall_mem_cons.2 ⟨hP _ nofun, ht.all⟩⟩

theorem tells_define (ht : Told P h₀ ds h)
    (hP : ∀ o, (∀ chunk err, o ≠ .refused chunk err) → P ⟨id, f, o⟩) :
    Tells P h₀ (define id f) h fun _ ds' _ =>
      ∃ chunk, ds' = ⟨id, f, .defined chunk⟩ :: ⟨id, f, .compiled chunk⟩ :: ds := by
  unfold define
  refine (tells_compile ht hP).bind fun chunk ds₁ h₁ _ ht₁ hds₁ => ?_
  have hcompiled : ⟨id, f, .compiled chunk⟩ ∈ ds₁ := hds₁ ▸ List.mem_cons_self
  obtain ⟨h₂, hclear⟩ : ∃ h₂, onScript id (Script.setGlobal f.name .nil) h₁ = .ok () h₂ := ⟨_, rfl⟩
  refine .after hclear ?_
  cases hcall : onScript id (Script.call chunk []) h₂ with
  | ok v h₃ =>
    have hdefined : Told P h₀ _ _ := ⟨ht₁.course.defined hcompiled hclear hcall,
      List.forall_mem_cons.2 ⟨hP _ nofun, ht₁.all⟩⟩
    refine .after hcall (.modifyEngine_bind (.of_ok rfl (hdefined.book rfl rfl) ⟨chunk, ?_⟩))
    rw [hds₁]
  | error s h₃ =>
    exact .of_error (bind_of_error hcall) ⟨ht₁.course.abandoned hcompiled hclear hcall,
      List.forall_mem_cons.2 ⟨hP _ nofun, ht₁.all⟩⟩

/-- A new instance has cached versions of all functions. -/
theorem tells_newInstance (ht : Told P h₀ ds h)
    (hright : ∀ f ∈ h.engine.functions.functions, f = .ofSource f.name f.code)
    (hP : ∀ f ∈ h.engine.functions.functions, ∀ id o, (∀ chunk err, o ≠ .refused chunk err) →
      P ⟨id, f, o⟩) :
    Tells P h₀ newInstance h fun i ds' e => ∀ f ∈ h.engine.functions.functions,
      ∃ g ∈ h.engine.functions.functions, g.name = f.name ∧ e.Has ds' i.script g := by
  unfold newInstance
  refine .engine_bind ?_
  cases hsetUp : setUp h.engine.config h.engine.sink h.engine.objects h with
  | error s h₁ => exact .of_error (bind_of_error hsetUp) ⟨ht.course.noSetUp hsetUp, ht.all⟩
  | ok id h₁ =>
    refine .after hsetUp ?_
    -- the functions so far are defined in a cached version
    let I (done : List CachedFunction) (ds : List Deed) (e : Engine) : Prop :=
      ∀ f ∈ done, ∃ g ∈ h.engine.functions.functions, g.name = f.name ∧ e.Has ds id g
    have hall := Tells.forM (I := I) (f := define id) h.engine.functions.functions ?_
      (⟨ht.course.setUp hsetUp, ht.all⟩ : Told P h₀ ds h₁) (by simp [I])
    · refine hall.bind fun _ ds₂ h₂ _ ht₂ hI => .modifyEngine_bind (.pure (ht₂.book rfl rfl) hI)
    · intro done f ds₂ h₂ hf ht₂ hdone
      have htells := tells_define ht₂ (hP f hf id)
      refine ⟨fun hok => ?_, fun herror => htells.error herror⟩
      obtain ⟨ds₃, ht₃, chunk, rfl⟩ := htells.ok hok
      have hone := (leaves_define id f h₂).ok hok
      refine ⟨_, ht₃, fun g hg => ?_⟩
      by_cases hname : g.name = f.name
      · refine ⟨f, hf, hname.symm, hone.version, ?_⟩
        exact definedSince_now rfl rfl (hright f hf) List.mem_cons_self
      · obtain ⟨g', hg', hname', hversion, hdefined⟩ := hdone g (by
          rcases List.mem_append.1 hg with hg | hg
          · exact hg
          · exact absurd (by rw [List.mem_singleton.1 hg]) hname)
        have hne : f.name ≠ g'.name := fun h => hname (hname'.symm.trans h.symm)
        refine ⟨g', hg', hname', ?_, ?_⟩
        · rw [hone.others id g'.name (by simpa using hne.symm), hversion]
        · have hspares : ∀ o, Deed.Spares id g' ⟨id, f, o⟩ := fun o =>
            Deed.spares_of_ne (by simpa using hne.symm)
          exact (hdefined.cons (hspares _)).cons (hspares _)

theorem tells_lease (ht : Told P h₀ ds h)
    (hright : ∀ f ∈ h.engine.functions.functions, f = .ofSource f.name f.code)
    (hP : ∀ f ∈ h.engine.functions.functions, ∀ id o, (∀ chunk err, o ≠ .refused chunk err) →
      P ⟨id, f, o⟩) :
    Tells P h₀ lease h fun leased ds' e => leased.2 = true → ∀ f ∈ h.engine.functions.functions,
      ∃ g ∈ h.engine.functions.functions, g.name = f.name ∧ e.Has ds' leased.1.script g := by
  unfold lease
  refine .engine_bind ?_
  dsimp only
  cases firstCurrent h.engine.generation h.engine.pool.items with
  | mk found rest =>
    refine .modifyEngine_bind ?_
    have ht' : Told P h₀ ds { h with engine :=
      { h.engine with pool := { h.engine.pool with items := rest } } } := ht.book rfl rfl
    cases found with
    | some i => exact .pure ht' nofun
    | none =>
      exact (tells_newInstance ht' hright hP).bind fun i ds₁ h₁ _ ht₁ hnew => .pure ht₁ fun _ => hnew

/-! ### Loads -/

/-- Replacing a function in an instance settles it there, and changes no other instance. -/
theorem tells_redefine {chunk : Value} (ht : Told P h₀ ds h)
    (hcompiled : ⟨id, f, .compiled chunk⟩ ∈ ds) (hright : f = .ofSource f.name f.code)
    (hP : ∀ o, P ⟨id, f, o⟩) :
    Tells P h₀ (redefine f id chunk) h fun _ ds' e => ds ⊆ ds' ∧ e.Settled ds' id f ∧
      ∀ id' ≠ id, h.engine.Settled ds id' f → e.Settled ds' id' f := by
  unfold redefine
  obtain ⟨h₁, hclear⟩ : ∃ h₁, onScript id (Script.setGlobal f.name .nil) h = .ok () h₁ := ⟨_, rfl⟩
  refine .after hclear ?_
  cases hcall : onScript id (Script.call chunk []) h₁ with
  | ok v h₂ =>
    have hdefined : Told P h₀ _ _ := ⟨ht.course.defined hcompiled hclear hcall,
      List.forall_mem_cons.2 ⟨hP _, ht.all⟩⟩
    have hengine := (engine_of_onScript hcall).trans (engine_of_onScript hclear)
    refine .after (observe_of_ok hcall) (.modifyEngine_bind (.of_ok rfl (hdefined.book rfl rfl)
      ⟨List.subset_cons_self _ _, .inl ?_, fun id' hne hsettled => ?_⟩))
    · exact ⟨version?_setVersion_self _ _ _ _, definedSince_now rfl rfl hright hcompiled⟩
    · have hne : (id', f.name) ≠ (id, f.name) := by simpa using hne
      exact hsettled.cons (hengine ▸ version?_setVersion_of_ne hne) (Deed.spares_of_ne hne)
  | error s h₂ =>
    refine .after (observe_of_error hcall) ?_
    have habandoned : Told P h₀ _ _ := ⟨ht.course.abandoned hcompiled hclear hcall,
      List.forall_mem_cons.2 ⟨hP _, ht.all⟩⟩
    cases s with
    | error err =>
      have hengine := (engine_of_onScript_error hcall).trans (engine_of_onScript hclear)
      refine .of_ok rfl ⟨ht.course.refused hcompiled hclear hcall,
        List.forall_mem_cons.2 ⟨hP _, ht.all⟩⟩
        ⟨List.subset_cons_self _ _, .inr ?_, fun id' hne hsettled => ?_⟩
      · exact ⟨version?_eraseVersion_self _ _ _, [], ds, chunk, err, rfl, hcompiled, by simp⟩
      · have hne : (id', f.name) ≠ (id, f.name) := by simpa using hne
        exact hsettled.cons (hengine ▸ version?_eraseVersion_of_ne hne) (Deed.spares_of_ne hne)
    | panic message => exact .of_error rfl habandoned
    | exhausted => exact .of_error rfl habandoned

/-- Every instance compiles a definition. -/
theorem tells_mapM (ids : List ScriptId) (ht : Told P h₀ ds h) (hP : ∀ id o, P ⟨id, f, o⟩) :
    Tells P h₀ (ids.mapM fun id => onScript id (Exec.loadString f.definition none f.name)) h
      fun chunks ds' _ => ds ⊆ ds' ∧ chunks.length = ids.length ∧
        ∀ p ∈ ids.zip chunks, ⟨p.1, f, .compiled p.2⟩ ∈ ds' := by
  induction ids generalizing ds h with
  | nil => exact .pure ht ⟨List.Subset.refl _, rfl, by simp⟩
  | cons id rest ih =>
    rw [List.mapM_cons]
    refine (tells_compile ht fun o _ => hP id o).bind fun chunk ds₁ h₁ _ ht₁ hds₁ => ?_
    refine (ih ht₁).bind fun chunks ds₂ h₂ _ ht₂ ⟨hsub, hlength, hzip⟩ => ?_
    refine .pure ht₂ ⟨fun d hd => hsub (hds₁ ▸ .tail _ hd), by simp [hlength], ?_⟩
    rw [List.zip_cons_cons]
    exact List.forall_mem_cons.2 ⟨hsub (hds₁ ▸ List.mem_cons_self), hzip⟩

/-- A new body that is loaded is settled in every idle instance. -/
theorem tells_loadFunction (name code : String) (ht : Told P h₀ ds h)
    (hP : h.engine.functions.hashOf? name ≠ some (CachedFunction.ofSource name code).hash →
      ∀ id o, P ⟨id, .ofSource name code, o⟩) :
    let f := CachedFunction.ofSource name code
    Tells P h₀ (loadFunction name code) h fun _ ds' e =>
      h.engine.functions.hashOf? name ≠ some f.hash →
        ∀ i ∈ h.engine.pool.items, e.Settled ds' i.script f := by
  intro f
  unfold loadFunction
  refine .engine_bind ?_
  dsimp only
  split
  · next hsame => exact .pure ht fun hnew => absurd (by simpa using hsame) hnew
  · next hnew =>
    have hP := hP (by simpa using hnew)
    split
    · next hempty =>
      have hnone : h.engine.pool.items = [] := by simpa [Pool.idle] using hempty
      have htrial : Tells P h₀ (checkLoad f.definition name) h fun _ _ _ => True := by
        unfold checkLoad onTrial
        constructor
        · intro a h' hok
          split at hok <;> cases hok
          exact ⟨ds, ht, trivial⟩
        · intro s h' herror
          split at herror <;> cases herror
          exact ⟨ds, ht⟩
      refine htrial.bind fun _ ds₁ h₁ _ ht₁ _ => .of_ok rfl (ht₁.book rfl rfl) fun _ => ?_
      simp [hnone]
    · refine (tells_mapM (f := f) (h.engine.pool.idle.map (·.script)) ht hP).bind ?_
      rintro chunks ds₁ h₁ - ht₁ ⟨-, hlength, hzip⟩
      -- the instances so far are settled
      let I (done : List (ScriptId × Value)) (ds : List Deed) (e : Engine) : Prop :=
        ds₁ ⊆ ds ∧ ∀ p ∈ done, e.Settled ds p.1 f
      have hall := Tells.forM (I := I) (f := fun p => redefine f p.1 p.2)
        ((h.engine.pool.idle.map (·.script)).zip chunks) ?_ ht₁ ⟨List.Subset.refl _, by simp⟩
      · refine hall.bind fun _ ds₂ h₂ _ ht₂ hI => .of_ok rfl (ht₂.book rfl rfl) fun _ i hi => ?_
        have hid : i.script ∈ h.engine.pool.idle.map (·.script) :=
          List.mem_map_of_mem (List.mem_reverse.2 hi)
        obtain ⟨n, hn, hget⟩ := List.getElem_of_mem hid
        refine hI.2 (i.script, chunks[n]) (List.mem_iff_getElem.2 ⟨n, ?_, ?_⟩)
        · rw [List.length_zip]
          exact Nat.lt_min.2 ⟨hn, hlength ▸ hn⟩
        · rw [List.getElem_zip, hget]
      · rintro done p ds₂ h₂ hp ht₂ ⟨hsub, hdone⟩
        have htells := tells_redefine ht₂ (hsub (hzip p hp)) rfl (hP p.1)
        refine ⟨fun hok => ?_, fun herror => htells.error herror⟩
        obtain ⟨ds₃, ht₃, hsub', hsettled, hothers⟩ := htells.ok hok
        refine ⟨ds₃, ht₃, List.Subset.trans hsub hsub', fun p' hp' => ?_⟩
        by_cases heq : p'.1 = p.1
        · exact heq ▸ hsettled
        · refine hothers p'.1 heq (hdone p' ?_)
          rcases List.mem_append.1 hp' with hp' | hp'
          · exact hp'
          · exact absurd (by rw [List.mem_singleton.1 hp']) heq

end Engine

end LuaMachine
