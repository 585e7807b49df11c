import LuaMachine.Dump.Function
import LuaMachine.Proofs.Dump.Codec

/-!
# A dump is read as the function it was made of

The pieces of a dump one after the other, each with its place in the codec: literals, symbols, spans,
operations and instructions. Addresses are written as counted from the header (`codes_address`), and
the source that a span belongs to is not written at all.

Main statements: `codes_op`, and `codes_function` for the dump as a whole.
-/

namespace LuaMachine

namespace OpCode

/-- Change the addresses that an operation holds. -/
def mapAddress (f : Nat → Nat) : OpCode → OpCode
  | jump t => jump (f t)
  | jumpIfFalse t => jumpIfFalse (f t)
  | jumpFalseOrPop t => jumpFalseOrPop (f t)
  | jumpTrueOrPop t => jumpTrueOrPop (f t)
  | forLoop t => forLoop (f t)
  | iterCheck t => iterCheck (f t)
  | closure entry captures => closure (f entry) captures
  | op => op

/-- The addresses that an operation holds: the target of a jump, the entry of a closure. -/
def addresses : OpCode → List Nat
  | closure entry _ => [entry]
  | op => op.jumpTarget?.toList

theorem relocate_eq_mapAddress (base : Nat) (op : OpCode) :
    op.relocate base = op.mapAddress (· + base) := by
  cases op <;> rfl

theorem mapAddress_mapAddress (f g : Nat → Nat) (op : OpCode) :
    (op.mapAddress f).mapAddress g = op.mapAddress fun a => g (f a) := by
  cases op <;> rfl

theorem addresses_mapAddress (f : Nat → Nat) (op : OpCode) :
    (op.mapAddress f).addresses = op.addresses.map f := by
  cases op <;> rfl

theorem mapAddress_congr {f g : Nat → Nat} {op : OpCode} (h : ∀ a ∈ op.addresses, f a = g a) :
    op.mapAddress f = op.mapAddress g := by
  cases op <;> simp_all [mapAddress, addresses, jumpTarget?]

end OpCode

/-- An instruction whose addresses are changed, attributed to another source. -/
def Instruction.moved (f : Nat → Nat) (source : Nat) (i : Instruction) : Instruction :=
  ⟨i.op.mapAddress f, i.span.map ({ · with origin := .source source })⟩

namespace Dump

/-! ## Literals and symbols -/

theorem codes_literal (v : Value) : Codes (writeLiteral v) readLiteral v := by
  cases v with
  | nil => exact (codes_u8 0).done rfl
  | boolean b =>
    cases b
    · exact (codes_u8 1).done rfl
    · exact (codes_u8 2).done rfl
  | number n => exact (codes_u8 3).bind ((codes_number n).map Value.number)
  | string s => exact (codes_u8 4).bind ((codes_string s).map Value.string)
  | _ => exact codes_throw _ _ _

/-- The number of environments around a name. -/
def depth : Symbol → Nat
  | .global _ env => depth env + 1
  | _ => 0

theorem codes_symbolWithin : ∀ (s : Symbol) {fuel : Nat}, depth s < fuel →
    Codes (writeSymbol s) (readSymbolWithin fuel) s
  | .local name slot, _ + 1, _ =>
    (codes_u8 0).bind ((codes_string name).bind ((codes_nat slot).map (Symbol.local name)))
  | .upvalue name i, _ + 1, _ =>
    (codes_u8 1).bind ((codes_string name).bind ((codes_nat i).map (Symbol.upvalue name)))
  | .global name env, _ + 1, h =>
    (codes_u8 2).bind ((codes_string name).bind
      ((codes_symbolWithin env (Nat.lt_of_succ_lt_succ h)).map (Symbol.global name)))
  | .defaultEnv, _ + 1, _ => (codes_u8 3).done rfl

/-- A tag, a name and a number take at least a byte. -/
theorem size_lt_of_named {tag : UInt8} {name : String} {n : Nat} {w w' : Writer}
    (h : (do Write.u8 tag; Write.string name; Write.nat n) w = .ok () w') :
    w.bytes.size < w'.bytes.size := by
  obtain ⟨⟨⟩, w₁, htag, h⟩ := Write.run_bind_ok.1 h
  obtain ⟨⟨⟩, w₂, hname, hn⟩ := Write.run_bind_ok.1 h
  have htag := Write.size_u8 htag
  have hname := (codes_string name).size_le hname
  have hn := (codes_nat n).size_le hn
  omega

/-- Each environment around a name takes at least a byte. -/
theorem depth_lt_of_writeSymbol : ∀ (s : Symbol) {w w' : Writer},
    writeSymbol s w = .ok () w' → w.bytes.size + depth s < w'.bytes.size := by
  intro s
  induction s with
  | «local» name slot => exact fun h => size_lt_of_named h
  | upvalue name i => exact fun h => size_lt_of_named h
  | global name env ih =>
    intro w w' h
    obtain ⟨⟨⟩, w₁, htag, h⟩ := Write.run_bind_ok.1 h
    obtain ⟨⟨⟩, w₂, hname, henv⟩ := Write.run_bind_ok.1 h
    have htag := Write.size_u8 htag
    have hname := (codes_string name).size_le hname
    have henv := ih henv
    simp only [depth]
    omega
  | defaultEnv =>
    intro w w' h
    have htag := Write.size_u8 h
    simp only [depth]
    omega

theorem codes_symbol (s : Symbol) : Codes (writeSymbol s) readSymbol s := by
  intro w w' hw
  obtain ⟨out, hbytes, -⟩ := codes_symbolWithin s (Nat.lt_succ_self _) w w' hw
  have hdepth := depth_lt_of_writeSymbol s hw
  have hlen : w'.bytes.size = w.bytes.size + out.length := by
    simpa using congrArg List.length hbytes
  refine ⟨out, hbytes, fun rest => ?_⟩
  have hfuel : depth s < (out ++ rest).length + 1 := by
    rw [List.length_append]
    omega
  obtain ⟨out', hbytes', hread⟩ := codes_symbolWithin s hfuel w w' hw
  obtain rfl : out' = out := by
    rw [hbytes] at hbytes'
    exact (List.append_cancel_left hbytes').symm
  exact hread rest

/-! ## Spans -/

theorem codes_span (k : Nat) (span : Option Span) :
    Codes (writeSpan span) (readSpan k) (span.map ({ · with origin := .source k })) := by
  cases span with
  | none => exact (codes_bool false).done rfl
  | some sp =>
    obtain ⟨origin, fromLine, fromColumn, toLine, toColumn, isStepStop, noBreakpoint⟩ := sp
    refine (codes_bool true).bind ((codes_nat fromLine).bind ((codes_nat fromColumn).bind
      ((codes_nat toLine).bind ((codes_nat toColumn).bind ((codes_u8 _).done ?_)))))
    have hflags : ∀ stop none : Bool,
        (((if stop then 1 else 0) + (if none then 2 else 0) : UInt8) &&& 1 != 0) = stop ∧
          (((if stop then 1 else 0) + (if none then 2 else 0) : UInt8) &&& 2 != 0) = none := by
      decide
    simp only [hflags isStepStop noBreakpoint]
    rfl

/-! ## Operations -/

/-- An address is written as counted from the header. -/
theorem codes_address (entry length a : Nat) :
    Codes (relative entry length a >>= Write.nat) (readAddress length) (a - entry) := by
  unfold relative
  split
  · next h =>
    simp only [Bool.and_eq_true, decide_eq_true_eq] at h
    rw [pure_bind]
    refine (codes_nat (a - entry)).done ?_
    rw [if_pos h.2]
  · intro w w' hw
    cases hw

/-- An operation is read with its addresses counted from the header. -/
theorem codes_op (entry length : Nat) (op : OpCode) :
    Codes (writeOp entry length op) (readOp length) (op.mapAddress (· - entry)) := by
  have haddress : ∀ (f : Nat → OpCode) (a : Nat),
      Codes (relative entry length a >>= Write.nat) (readAddress length >>= fun t => pure (f t))
        (f (a - entry)) := fun f a => (codes_address entry length a).map f
  cases op with
  | header name kind n =>
    refine (codes_u8 1).bind ((codes_string name).bind ?_)
    have hlength : ∀ k, Codes (.nat n) (Read.nat >>= fun m => pure (OpCode.header name k m))
        (.header name k n) := fun k => (codes_nat n).map _
    cases kind
    · exact (codes_u8 0).bind (hlength .chunk)
    · exact (codes_u8 1).bind (hlength .function)
  | beginFn locals =>
    have hlocals := codes_each (f := id) locals fun s _ => codes_string s
    rw [List.map_id] at hlocals
    exact (codes_u8 2).bind ((codes_nat locals.length).bind (hlocals.map OpCode.beginFn))
  | args params varargs =>
    exact (codes_u8 3).bind ((codes_nat params).bind ((codes_bool varargs).map (OpCode.args params)))
  | literal v => exact (codes_u8 4).bind ((codes_literal v).map OpCode.literal)
  | pop n => exact (codes_u8 5).bind ((codes_nat n).map OpCode.pop)
  | copy n => exact (codes_u8 6).bind ((codes_nat n).map OpCode.copy)
  | load s => exact (codes_u8 7).bind ((codes_symbol s).map OpCode.load)
  | store s i =>
    exact (codes_u8 8).bind ((codes_symbol s).bind ((codes_nat i).map (OpCode.store s)))
  | «local» slot i =>
    exact (codes_u8 9).bind ((codes_nat slot).bind ((codes_nat i).map (OpCode.local slot)))
  | closure target captures =>
    have hcaptures := codes_each (f := id) captures fun s _ => codes_symbol s
    rw [List.map_id] at hcaptures
    exact (codes_u8 10).bind ((codes_address entry length target).bind
      ((codes_nat captures.length).bind (hcaptures.map (OpCode.closure (target - entry)))))
  | call argc => exact (codes_u8 12).bind ((codes_nat argc).map OpCode.call)
  | method name => exact (codes_u8 13).bind ((codes_string name).map OpCode.method)
  | ret n => exact (codes_u8 14).bind ((codes_nat n).map OpCode.ret)
  | jump t => exact (codes_u8 15).bind (haddress .jump t)
  | jumpIfFalse t => exact (codes_u8 16).bind (haddress .jumpIfFalse t)
  | jumpFalseOrPop t => exact (codes_u8 17).bind (haddress .jumpFalseOrPop t)
  | jumpTrueOrPop t => exact (codes_u8 18).bind (haddress .jumpTrueOrPop t)
  | binary op =>
    refine (codes_u8 19).bind ((codes_nat op.code).done ?_)
    simp only [BinaryOp.all_getElem?_code]
    rfl
  | tableAppend i expand =>
    exact (codes_u8 25).bind ((codes_nat i).bind ((codes_bool expand).map (OpCode.tableAppend i)))
  | indexSet i => exact (codes_u8 27).bind ((codes_nat i).map OpCode.indexSet)
  | makeTuple n => exact (codes_u8 28).bind ((codes_nat n).map OpCode.makeTuple)
  | forLoop exit => exact (codes_u8 31).bind (haddress .forLoop exit)
  | forVar slot => exact (codes_u8 33).bind ((codes_nat slot).map OpCode.forVar)
  | iterCheck exit => exact (codes_u8 35).bind (haddress .iterCheck exit)
  -- the operations without operands
  | _ => exact (codes_u8 _).done rfl

theorem codes_instruction (entry length k : Nat) (i : Instruction) :
    Codes (writeInstruction entry length i) (readInstruction k length)
      (i.moved (· - entry) k) :=
  (codes_op entry length i.op).bind ((codes_span k i.span).map (Instruction.mk _))

theorem codes_magic : Codes (do .bytes magic; .u8 version) readMagic () := by
  intro w w' hw
  cases hw
  refine ⟨magic ++ [version], by simp, fun rest => ?_⟩
  have hmagic : (tryCatch (some <$> Read.bytes 4) fun _ => pure none : Read _).run
      ⟨magic ++ ([version] ++ rest), w.strings.toArray⟩ =
      .ok (some magic) ⟨[version] ++ rest, w.strings.toArray⟩ := by
    rfl
  unfold readMagic
  rw [List.append_assoc, Read.run_bind_ok _ hmagic]
  simp only [bne_self_eq_false, Bool.false_eq_true, if_false]
  exact Read.run_bind_ok _ (Read.run_u8 version rest _)

/-- A dump is read as the instructions it was made of, with addresses counted from the header. -/
theorem codes_function (entry k : Nat) (hasEnv : Bool) (body : List Instruction) :
    Codes (writeFunction entry hasEnv body) (readFunction k)
      (hasEnv, body.map (·.moved (· - entry) k)) := by
  have hbody := codes_each body fun i _ => codes_instruction entry body.length k i
  have hcounted : Codes
      (do .nat body.length; .each (writeInstruction entry body.length) body)
      (do
        let length ← Read.nat
        pure (hasEnv, ← Read.each (readInstruction k length) length))
      (hasEnv, body.map (·.moved (· - entry) k)) :=
    (codes_nat body.length).bind (hbody.map (Prod.mk hasEnv))
  unfold writeFunction
  rw [← bind_assoc]
  exact codes_magic.bind ((codes_bool hasEnv).bind hcounted)

end Dump

end LuaMachine
