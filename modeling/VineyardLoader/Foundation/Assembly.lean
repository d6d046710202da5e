import Mathlib.Tactic.Common
import VineyardLoader.Foundation.Memory

/-!
# Straight-line assembly

Assembly of x86-64 without branches: some of the general registers, the stack in memory, the control
registers and the model-specific registers. A routine is a list of instructions that are executed one
after the other.

A routine in the usual frame saves the base pointer, and restores it before it returns. If its body
leaves the stack pointer and memory alone, then it returns to its caller with the stack as it was,
and does what the body does (`framed_returns`).

A processor fetches its instructions through the page tables. Code that changes them goes on as long
as its addresses mean the same in the new ones (`steps_of_lies`).
-/

set_option autoImplicit false

namespace VineyardLoader

/-- The general registers. -/
inductive Reg where
  | rax
  | rcx
  | rdx
  | rbp
  | rsp
  | rsi
deriving Repr, DecidableEq

/-- Instructions. Those that end in `Low` are about the low 32 bits. -/
inductive Instr where
  | push (src : Reg)
  | pop (dst : Reg)
  | mov (dst src : Reg)
  | movLow (dst src : Reg)
  | movImm (dst : Reg) (value : BitVec 64)
  | shl (dst : Reg) (count : Nat)
  | shr (dst : Reg) (count : Nat)
  | or (dst src : Reg)
  | xor (dst src : Reg)
  | readCr (dst : Reg) (number : Nat)
  | writeCr (number : Nat) (src : Reg)
  | rdmsr
  | wrmsr
  | ret
  | jmp (src : Reg)
deriving Repr, DecidableEq

/-- A processor. -/
structure Cpu where
  reg : Reg → BitVec 64
  rip : BitVec 64
  mem : Memory
  cr : Nat → BitVec 64
  msr : BitVec 32 → BitVec 64

namespace Cpu

variable (cpu : Cpu)

def set (dst : Reg) (value : BitVec 64) : Cpu :=
  { cpu with reg := fun other => if other = dst then value else cpu.reg other }

@[simp] theorem set_reg (dst other : Reg) (value : BitVec 64) :
    (cpu.set dst value).reg other = if other = dst then value else cpu.reg other := rfl

@[simp] theorem set_mem (dst : Reg) (value : BitVec 64) : (cpu.set dst value).mem = cpu.mem := rfl

@[simp] theorem set_rip (dst : Reg) (value : BitVec 64) : (cpu.set dst value).rip = cpu.rip := rfl

@[simp] theorem set_cr (dst : Reg) (value : BitVec 64) : (cpu.set dst value).cr = cpu.cr := rfl

@[simp] theorem set_msr (dst : Reg) (value : BitVec 64) : (cpu.set dst value).msr = cpu.msr := rfl

/-- The word on top of the stack. -/
def top : BitVec 64 := BitVec.ofNat 64 (cpu.mem.load64 (cpu.reg .rsp).toNat)

/-- A word is pushed. -/
def pushed (value : BitVec 64) : Cpu :=
  { cpu.set .rsp (cpu.reg .rsp - 8) with
    mem := cpu.mem.store64 (cpu.reg .rsp - 8).toNat value.toNat }

/-- A word is dropped. -/
def popped : Cpu := cpu.set .rsp (cpu.reg .rsp + 8)

end Cpu

/-- An instruction is executed. -/
def Instr.exec : Instr → Cpu → Cpu
  | .push src, cpu => cpu.pushed (cpu.reg src)
  | .pop dst, cpu => cpu.popped.set dst cpu.top
  | .mov dst src, cpu => cpu.set dst (cpu.reg src)
  | .movLow dst src, cpu => cpu.set dst (((cpu.reg src).setWidth 32).setWidth 64)
  | .movImm dst value, cpu => cpu.set dst value
  | .shl dst count, cpu => cpu.set dst (cpu.reg dst <<< count)
  | .shr dst count, cpu => cpu.set dst (cpu.reg dst >>> count)
  | .or dst src, cpu => cpu.set dst (cpu.reg dst ||| cpu.reg src)
  | .xor dst src, cpu => cpu.set dst (cpu.reg dst ^^^ cpu.reg src)
  | .readCr dst number, cpu => cpu.set dst (cpu.cr number)
  | .writeCr number src, cpu =>
      { cpu with cr := fun other => if other = number then cpu.reg src else cpu.cr other }
  | .rdmsr, cpu =>
      let value := cpu.msr ((cpu.reg .rcx).setWidth 32)
      (cpu.set .rax ((value.setWidth 32).setWidth 64)).set .rdx (value >>> 32)
  | .wrmsr, cpu =>
      { cpu with msr := fun other =>
          if other = (cpu.reg .rcx).setWidth 32 then
            (cpu.reg .rdx).setWidth 32 ++ (cpu.reg .rax).setWidth 32
          else cpu.msr other }
  | .ret, cpu => { cpu.popped with rip := cpu.top }
  | .jmp src, cpu => { cpu with rip := cpu.reg src }

/-- The instructions of a routine are executed. -/
def execAll (code : List Instr) (cpu : Cpu) : Cpu :=
  code.foldl (fun cpu instr => instr.exec cpu) cpu

theorem execAll_append (first second : List Instr) (cpu : Cpu) :
    execAll (first ++ second) cpu = execAll second (execAll first cpu) :=
  List.foldl_append

/-- A routine is called, and returns behind the call. -/
def Cpu.call (cpu : Cpu) (code : List Instr) (behind : BitVec 64) : Cpu :=
  execAll code (cpu.pushed behind)

/-! ## Frames -/

/-- An instruction of a body leaves the stack and the flow of control alone. -/
def Instr.Plain : Instr → Prop
  | .push _ | .pop _ | .ret | .jmp _ => False
  | .mov dst _ | .movLow dst _ | .movImm dst _ | .shl dst _ | .shr dst _ | .or dst _ | .xor dst _
  | .readCr dst _ => dst ≠ .rsp
  | .writeCr _ _ | .rdmsr | .wrmsr => True

instance : DecidablePred Instr.Plain := fun instr => by
  cases instr <;> unfold Instr.Plain <;> infer_instance

/-- The part of a processor that bodies leave alone. -/
def Cpu.stack (cpu : Cpu) : BitVec 64 × BitVec 64 × Memory := (cpu.reg .rsp, cpu.rip, cpu.mem)

theorem Instr.Plain.stack {instr : Instr} (plain : instr.Plain) (cpu : Cpu) :
    (instr.exec cpu).stack = cpu.stack := by
  cases instr with
  | push | pop | ret | jmp => exact plain.elim
  | writeCr | wrmsr => rfl
  | rdmsr => simp [Instr.exec, Cpu.stack]
  | mov | movLow | movImm | shl | shr | or | xor | readCr =>
      simp [Instr.exec, Cpu.stack, Ne.symm plain]

theorem execAll_stack {body : List Instr} (plain : ∀ instr ∈ body, instr.Plain) (cpu : Cpu) :
    (execAll body cpu).stack = cpu.stack := by
  induction body generalizing cpu with
  | nil => rfl
  | cons instr body ih =>
      exact (ih (fun other member => plain other (List.mem_cons_of_mem _ member)) _).trans
        ((plain instr List.mem_cons_self).stack cpu)

/-- A body in the usual frame. -/
def framed (body : List Instr) : List Instr := [.push .rbp, .mov .rbp .rsp] ++ body ++ [.pop .rbp, .ret]

/-- The processor when the body of a routine starts. -/
def Cpu.entered (cpu : Cpu) (behind : BitVec 64) : Cpu :=
  let called := cpu.pushed behind
  let saved := called.pushed (called.reg .rbp)
  saved.set .rbp (saved.reg .rsp)

/-- What a call of a routine in a frame leaves. -/
structure Returned (cpu : Cpu) (behind : BitVec 64) (inside after : Cpu) : Prop where
  rip : after.rip = behind
  rsp : after.reg .rsp = cpu.reg .rsp
  rbp : after.reg .rbp = cpu.reg .rbp
  others : ∀ reg, reg ≠ .rsp → reg ≠ .rbp → after.reg reg = inside.reg reg
  cr : after.cr = inside.cr
  msr : after.msr = inside.msr
  mem : ∀ address, address < (cpu.reg .rsp).toNat - 16 ∨ (cpu.reg .rsp).toNat ≤ address →
    after.mem address = cpu.mem address

/-- **A routine in a frame returns to its caller**, with the stack and the base pointer as they were,
and otherwise does what its body does. -/
theorem framed_returns {body : List Instr} (plain : ∀ instr ∈ body, instr.Plain) (cpu : Cpu)
    (behind : BitVec 64) (room : 16 ≤ (cpu.reg .rsp).toNat) :
    Returned cpu behind (execAll body (cpu.entered behind)) (cpu.call (framed body) behind) := by
  have stack := execAll_stack plain (cpu.entered behind)
  have run : cpu.call (framed body) behind =
      Instr.exec .ret (Instr.exec (.pop .rbp) (execAll body (cpu.entered behind))) := by
    rw [Cpu.call, framed, execAll_append, execAll_append]
    rfl
  rw [run]
  generalize execAll body (cpu.entered behind) = inside at stack ⊢
  have rsp : inside.reg .rsp = cpu.reg .rsp - 8 - 8 := by
    have same := congrArg Prod.fst stack
    exact same
  have mem : inside.mem = (cpu.mem.store64 (cpu.reg .rsp - 8).toNat behind.toNat).store64
      (cpu.reg .rsp - 8 - 8).toNat (cpu.reg .rbp).toNat := by
    have same := congrArg (fun stack => stack.2.2) stack
    exact same
  have first : (cpu.reg .rsp - 8).toNat = (cpu.reg .rsp).toNat - 8 := by bv_omega
  have second : (cpu.reg .rsp - 8 - 8).toNat = (cpu.reg .rsp).toNat - 16 := by bv_omega
  have back : cpu.reg .rsp - 8 - 8 + 8 = cpu.reg .rsp - 8 := by bv_omega
  have base : inside.top = cpu.reg .rbp := by
    rw [Cpu.top, rsp, mem, Memory.load64_store64 _ _ (BitVec.isLt _), BitVec.ofNat_toNat,
      BitVec.setWidth_eq]
  have place : (Instr.exec (.pop .rbp) inside).reg .rsp = cpu.reg .rsp - 8 := by
    rw [← back, ← rsp]
    rfl
  have next : (Instr.exec (.pop .rbp) inside).top = behind := by
    rw [Cpu.top, place]
    show BitVec.ofNat 64 (inside.mem.load64 _) = behind
    rw [mem, Memory.load64_store64_of_disjoint _ (by omega),
      Memory.load64_store64 _ _ (BitVec.isLt _), BitVec.ofNat_toNat, BitVec.setWidth_eq]
  refine ⟨next, ?_, base, ?_, rfl, rfl, ?_⟩
  · show (Instr.exec (.pop .rbp) inside).reg .rsp + 8 = cpu.reg .rsp
    rw [place]
    bv_omega
  · intro reg notStack notBase
    simp [Instr.exec, Cpu.popped, notStack, notBase]
  · intro address outside
    show inside.mem address = cpu.mem address
    rw [mem, Memory.store64_outside _ (by omega), Memory.store64_outside _ (by omega)]

/-! ## Fetching -/

/-- Where a processor finds its instructions: the physical address of an address that is executed,
under a value of `cr3`, and the instruction at a physical address with its length. -/
structure Fetching where
  fetch : BitVec 64 → BitVec 64 → Option Nat
  code : Nat → Option (Instr × Nat)

namespace Cpu

/-- The next instruction is fetched and executed. -/
def step (source : Fetching) (cpu : Cpu) : Option Cpu := do
  let physical ← source.fetch (cpu.cr 3) cpu.rip
  let (instr, length) ← source.code physical
  return instr.exec { cpu with rip := cpu.rip + BitVec.ofNat 64 length }

def steps (source : Fetching) : Nat → Cpu → Option Cpu
  | 0, cpu => some cpu
  | count + 1, cpu => (cpu.step source).bind (steps source count)

theorem steps_add {source : Fetching} (first second : Nat) (cpu : Cpu) :
    cpu.steps source (first + second) = (cpu.steps source first).bind (steps source second) := by
  induction first generalizing cpu with
  | zero =>
      rw [Nat.zero_add]
      rfl
  | succ first ih =>
      rw [Nat.succ_add, steps, steps, Option.bind_assoc]
      exact congrArg _ (funext ih)

end Cpu

/-- The code lies from an address to another one. -/
inductive Fetching.Lies (source : Fetching) : List Instr → Nat → Nat → Prop
  | nil (start : Nat) : Lies source [] start start
  | cons {instr : Instr} {body : List Instr} {start length stop : Nat}
      (here : source.code start = some (instr, length)) (positive : 0 < length)
      (rest : Lies source body (start + length) stop) : Lies source (instr :: body) start stop

theorem Fetching.Lies.le {source : Fetching} {body : List Instr} {start stop : Nat}
    (lies : source.Lies body start stop) : start ≤ stop := by
  induction lies with
  | nil => exact Nat.le_refl _
  | cons here positive rest ih => omega

theorem Fetching.lies_append {source : Fetching} {first second : List Instr} {start stop : Nat}
    (lies : source.Lies (first ++ second) start stop) :
    ∃ middle, source.Lies first start middle ∧ source.Lies second middle stop := by
  induction first generalizing start with
  | nil => exact ⟨start, .nil start, lies⟩
  | cons instr first ih =>
      cases lies with
      | cons here positive rest =>
          obtain ⟨middle, before, after⟩ := ih rest
          exact ⟨middle, .cons here positive before, after⟩

/-- The next instruction is the one behind. -/
def Instr.Sequential (instr : Instr) : Prop := ∀ cpu rip,
  instr.exec { cpu with rip := rip } = { instr.exec cpu with rip := rip }

theorem sequential_of {instr : Instr} (noReturn : instr ≠ .ret) (noJump : ∀ src, instr ≠ .jmp src) :
    instr.Sequential := by
  intro cpu rip
  cases instr with
  | ret => exact absurd rfl noReturn
  | jmp src => exact absurd rfl (noJump src)
  | push | pop | mov | movLow | movImm | shl | shr | or | xor | readCr | writeCr | rdmsr | wrmsr => rfl

/-- **Code is executed from its first address to its last** if these are mapped to themselves in
whatever tables it has put in place so far. -/
theorem steps_of_lies {source : Fetching} {body : List Instr} {start stop : Nat} {cpu : Cpu}
    (lies : source.Lies body start stop) (sequential : ∀ instr ∈ body, instr.Sequential)
    (below : stop < 2 ^ 64)
    (mapped : ∀ count, count < body.length → ∀ address, start ≤ address → address < stop →
      source.fetch ((execAll (body.take count) cpu).cr 3) (BitVec.ofNat 64 address) = some address) :
    Cpu.steps source body.length { cpu with rip := BitVec.ofNat 64 start } =
      some { execAll body cpu with rip := BitVec.ofNat 64 stop } := by
  induction lies generalizing cpu with
  | nil start => rfl
  | @cons instr body start length stop here positive rest ih =>
      have after := rest.le
      have found := mapped 0 (Nat.succ_pos _) start (Nat.le_refl _) (by omega)
      have next : Cpu.step source { cpu with rip := BitVec.ofNat 64 start } =
          some { instr.exec cpu with rip := BitVec.ofNat 64 (start + length) } := by
        have moved : BitVec.ofNat 64 start + BitVec.ofNat 64 length =
            BitVec.ofNat 64 (start + length) := (BitVec.ofNat_add start length).symm
        rw [Cpu.step]
        show (source.fetch (cpu.cr 3) (BitVec.ofNat 64 start)).bind _ = _
        rw [show source.fetch (cpu.cr 3) (BitVec.ofNat 64 start) = some start from found,
          Option.bind_some, here]
        show some (instr.exec { cpu with rip := BitVec.ofNat 64 start + BitVec.ofNat 64 length }) = _
        rw [moved, sequential instr List.mem_cons_self]
      have later : Cpu.steps source body.length
          { instr.exec cpu with rip := BitVec.ofNat 64 (start + length) } =
            some { execAll body (instr.exec cpu) with rip := BitVec.ofNat 64 stop } :=
        ih (fun other member => sequential other (List.mem_cons_of_mem _ member)) below
          (fun count inside address lower upper =>
            mapped (count + 1) (Nat.succ_lt_succ inside) address (by omega) upper)
      rw [List.length_cons, Cpu.steps, next]
      exact later

end VineyardLoader
