import LuaMachine.Proofs.Code.Generation
import LuaMachine.Proofs.Scope.Bounds

/-!
# A verifier of code

What it takes for a function to run without reaching below its own part of the value stack. The
verifier assigns to each instruction that a function owns a depth: the number of values that lie
above the base of the frame when control comes there. `Verified` says that the entry has depth zero,
that every instruction finds its operands, that control stays in the function and arrives at every
instruction with the depth assigned to it, and that symbols stay within the bounds of the function.

The functions of a chunk lie inside one another. An instruction belongs to the innermost function
around it (`Owns`).

Main statements: control never leaves the instructions that a function owns and the depths are those
of every path (`Verified.reaches`); and a verified function stays verified wherever its own
instructions are the same (`Verified.congr`).
-/

namespace LuaMachine

namespace OpCode

/-- How many values an operation needs above the base of its frame. -/
def needs : OpCode → Nat
  | nop | header .. | beginFn .. | args .. | literal _ | load _ | closure .. | varargs | jump _
  | newTable => 0
  | pop n | makeTuple n => n
  | copy n | call n => n + 1
  | ret n => if n = 0 then 0 else 1
  | store .. | .local .. | method _ | jumpIfFalse _ | jumpFalseOrPop _ | jumpTrueOrPop _ | not | neg
  | len | scalar | iterPrep => 1
  | binary _ | index | tableAppend .. => 2
  | tableSet | indexSet _ | forPrep | forLoop _ | forStep | forVar _ => 3
  | iterCheck _ => 4

/-- The depth that an operation leaves when control goes on to the next instruction. -/
def leaves (d : Nat) : OpCode → Nat
  | literal _ | load _ | closure .. | varargs | newTable | copy _ | method _ => d + 1
  | pop n => d - n
  | makeTuple n => d - n + 1
  | call n => d - (n + 1) + 1
  | binary _ | index | tableAppend .. | jumpIfFalse _ | jumpFalseOrPop _ | jumpTrueOrPop _ => d - 1
  | tableSet | indexSet _ => d - 2
  | iterPrep => d - 1 + 3
  | _ => d

/-- Where control may pass to from an operation at an address and a depth, and the depth there. -/
def next (x d : Nat) (op : OpCode) : List (Nat × Nat) :=
  match op with
  | ret _ => []
  | jump t => [(t, d)]
  | jumpIfFalse t | iterCheck t => [(t, d - 1), (x + 1, op.leaves d)]
  | jumpFalseOrPop t | jumpTrueOrPop t | forLoop t => [(t, d), (x + 1, op.leaves d)]
  | _ => [(x + 1, op.leaves d)]

/-- The symbols and slots of an operation are within bounds. -/
def SlotsWithin (locals upvalues : Nat) : OpCode → Prop
  | load s | store s _ => s.Within locals upvalues
  | .local slot _ | forVar slot => slot < locals
  | args params _ => params ≤ locals
  | closure _ captures => ∀ s ∈ captures, s.Within locals upvalues
  | _ => True

theorem SlotsWithin.mono {l u l' u' : Nat} (hl : l ≤ l') (hu : u ≤ u') {op : OpCode}
    (h : op.SlotsWithin l u) : op.SlotsWithin l' u' := by
  cases op with
  | load s => exact Symbol.Within.mono hl hu h
  | store s i => exact Symbol.Within.mono hl hu h
  | «local» slot i => exact Nat.lt_of_lt_of_le h hl
  | forVar slot => exact Nat.lt_of_lt_of_le h hl
  | args params varargs => exact Nat.le_trans h hl
  | closure entry captures => exact fun s hs => (h s hs).mono hl hu
  | _ => trivial

end OpCode

/-- The operations at the addresses of a piece of code. -/
abbrev Listing := Nat → Option OpCode

/-- An address lies in a function whose header stands at `lo` or later. -/
def Covered (code : Listing) (lo x : Nat) : Prop :=
  ∃ h name kind n, code h = some (.header name kind n) ∧ lo ≤ h ∧ h ≤ x ∧ x < h + n

/-- An address lies in the function of `n` instructions at `a` and in no function nested in it. -/
def Owns (code : Listing) (a n x : Nat) : Prop := a ≤ x ∧ x < a + n ∧ ¬ Covered code (a + 1) x

/-- An instruction finds its operands, keeps to its bounds, passes control on at the right depths,
and makes closures of functions nested in its own. -/
structure Checked (code : Listing) (a n locals upvalues : Nat) (depth : Nat → Nat) (x : Nat)
    (op : OpCode) : Prop where
  operands : op.needs ≤ depth x
  slots : op.SlotsWithin locals upvalues
  flow : ∀ y d, (y, d) ∈ op.next x (depth x) → Owns code a n y ∧ depth y = d
  nested : ∀ b captures, op = .closure b captures →
    ∃ name kind m, code b = some (.header name kind m) ∧ a < b ∧ b < a + n ∧ b + m ≤ a + n

/-- A verified function of `n` instructions at `a`, with its numbers of slots and captures. -/
structure Verified (code : Listing) (a n locals upvalues : Nat) (depth : Nat → Nat) : Prop where
  entry : depth a = 0
  owns_entry : Owns code a n a
  checked : ∀ x, Owns code a n x →
    ∃ op, code x = some op ∧ Checked code a n locals upvalues depth x op

/-- A function of `n` instructions at `a` with `upvalues` captures whose code is verified; its slots
are those that its second instruction makes. -/
def FunctionAt (code : Listing) (a n upvalues : Nat) : Prop :=
  (∃ name kind, code a = some (.header name kind n)) ∧
    ∃ names depth, code (a + 1) = some (.beginFn names) ∧
      Verified code a n names.length upvalues depth

/-! ## Paths -/

/-- The addresses that control can reach from `a`, with the depths it arrives with. -/
inductive Reaches (code : Listing) (a : Nat) : Nat → Nat → Prop where
  | entry : Reaches code a a 0
  | step {x d : Nat} {op : OpCode} {y e : Nat} : Reaches code a x d → code x = some op →
      (y, e) ∈ op.next x d → Reaches code a y e

/-- Control never leaves what the function owns, and on every path it arrives with the depth that is
assigned to the address. -/
theorem Verified.reaches {code : Listing} {a n locals upvalues : Nat} {depth : Nat → Nat}
    (hv : Verified code a n locals upvalues depth) {x d : Nat} (hr : Reaches code a x d) :
    Owns code a n x ∧ depth x = d := by
  induction hr with
  | entry => exact ⟨hv.owns_entry, hv.entry⟩
  | step _ hop hnext ih =>
    obtain ⟨hown, hd⟩ := ih
    obtain ⟨op', hop', hc⟩ := hv.checked _ hown
    rw [hop] at hop'
    cases hop'
    rw [← hd] at hnext
    exact hc.flow _ _ hnext

/-! ## Moving between listings -/

theorem covered_congr {code code' : Listing} {lo hi : Nat}
    (h : ∀ x, lo ≤ x → x < hi → code' x = code x) {x : Nat} (hx : x < hi) :
    Covered code' lo x ↔ Covered code lo x := by
  constructor
  · rintro ⟨b, name, kind, n, hb, hlo, hbx, hxn⟩
    rw [h b hlo (by omega)] at hb
    exact ⟨b, name, kind, n, hb, hlo, hbx, hxn⟩
  · rintro ⟨b, name, kind, n, hb, hlo, hbx, hxn⟩
    rw [← h b hlo (by omega)] at hb
    exact ⟨b, name, kind, n, hb, hlo, hbx, hxn⟩

theorem owns_congr {code code' : Listing} {a n : Nat}
    (h : ∀ x, a ≤ x → x < a + n → code' x = code x) {x : Nat} :
    Owns code' a n x ↔ Owns code a n x := by
  unfold Owns
  refine and_congr_right fun _ => and_congr_right fun hx => not_congr ?_
  exact covered_congr (fun y hy hyn => h y (by omega) hyn) hx

theorem Verified.congr {code code' : Listing} {a n locals upvalues : Nat} {depth : Nat → Nat}
    (hv : Verified code a n locals upvalues depth)
    (h : ∀ x, a ≤ x → x < a + n → code' x = code x) :
    Verified code' a n locals upvalues depth := by
  refine ⟨hv.entry, (owns_congr h).2 hv.owns_entry, ?_⟩
  intro x hx
  have hx' := (owns_congr h).1 hx
  obtain ⟨op, hop, hc⟩ := hv.checked x hx'
  refine ⟨op, (h x hx.1 hx.2.1).trans hop, hc.operands, hc.slots, ?_, ?_⟩
  · intro y d hy
    obtain ⟨hown, hd⟩ := hc.flow y d hy
    exact ⟨(owns_congr h).2 hown, hd⟩
  · intro b captures hb
    obtain ⟨name, kind, m, hm, hab, hbn, hbm⟩ := hc.nested b captures hb
    exact ⟨name, kind, m, (h b (by omega) hbn).trans hm, hab, hbn, hbm⟩

/-- The header of a verified function is followed by one more instruction at least. -/
theorem Verified.one_lt_length {code : Listing} {a n locals upvalues : Nat} {depth : Nat → Nat}
    (hv : Verified code a n locals upvalues depth) {name : String} {kind : HeaderKind} {m : Nat}
    (ha : code a = some (.header name kind m)) : 1 < n := by
  have hstep : Reaches code a (a + 1) 0 := .step .entry ha (by simp [OpCode.next, OpCode.leaves])
  have hown := (hv.reaches hstep).1
  have hlt := hown.2.1
  omega

theorem FunctionAt.congr {code code' : Listing} {a n upvalues : Nat}
    (hf : FunctionAt code a n upvalues) (h : ∀ x, a ≤ x → x < a + n → code' x = code x) :
    FunctionAt code' a n upvalues := by
  obtain ⟨⟨name, kind, ha⟩, names, depth, hb, hv⟩ := hf
  have hn := hv.one_lt_length ha
  refine ⟨⟨name, kind, (h a (by omega) (by omega)).trans ha⟩, names, depth, ?_, hv.congr h⟩
  exact (h (a + 1) (by omega) (by omega)).trans hb

end LuaMachine
