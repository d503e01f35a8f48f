import Tapecode.Proofs.Balance
import Tapecode.Proofs.Compilation

/-!
# Where instructions stand in the code

The words of a balanced program follow each other in the order of its instructions, so the address
of an instruction is the width of the instructions before it (`Program.width`).

* `Nest.exists_placed`: at the address of each instruction stand its own words. The distance of a
  loop delimiter is the width of the loop's body and of its end.
* `Nest.step_act`, `Nest.step_enter`, `Nest.step_leave`, `Nest.step_end`: what the machine does at
  the address of an instruction, and at which address it goes on.
-/

namespace Tapecode

open Machine

/-! ## Addresses -/

/-- How many words an instruction takes in bytecode. -/
def Instruction.width : Instruction → Nat
  | act e o => (e.op o).width
  | enter _ => Opcode.jumpIfZero.width
  | leave _ => Opcode.jumpIfNotZero.width

namespace Program

/-- How many words the instructions of a program take in bytecode. -/
def width : Program → Nat
  | [] => 0
  | i :: rest => i.width + width rest

@[simp] theorem width_nil : width [] = 0 := rfl

@[simp] theorem width_cons (i : Instruction) (p : Program) :
    width (i :: p) = i.width + p.width := rfl

@[simp] theorem width_append (p q : Program) : width (p ++ q) = p.width + q.width := by
  induction p with
  | nil => simp
  | cons i rest ih =>
    rw [List.cons_append, width_cons, width_cons, ih]
    omega

/-- Some instruction of the program stands at this address, or the code ends there. -/
def IsAddress (p : Program) (address : Nat) : Prop :=
  ∃ before after, p = before ++ after ∧ before.width = address

end Program

@[simp] theorem Instruction.width_act (e : Effect) (o : Int) :
    (Instruction.act e o).width = (e.op o).width := rfl

@[simp] theorem Instruction.width_enter (o : Int) : (Instruction.enter o).width = 3 := rfl

@[simp] theorem Instruction.width_leave (o : Int) : (Instruction.leave o).width = 3 := rfl

theorem Nest.length_encode (n : Nest) : n.encode.length = n.program.width := by
  induction n with
  | done => rfl
  | act e o rest ih => simp [encode, program, ih]
  | loop entry body exit rest ihBody ihRest =>
    have henter (x : Word) : (Op.jumpIfZero entry x).words.length = 3 := rfl
    have hleave (x : Word) : (Op.jumpIfNotZero exit x).words.length = 3 := rfl
    simp [encode, program, ihBody, ihRest, henter, hleave]

/-! ## Words of single instructions -/

/-- A position in one of two lists that are joined by an element `y`. -/
theorem append_cons_cases {α : Type} {xs ys before after : List α} {y i : α}
    (h : xs ++ y :: ys = before ++ i :: after) :
    (∃ c, xs = before ++ i :: c ∧ after = c ++ y :: ys) ∨
      (before = xs ∧ i = y ∧ after = ys) ∨ ∃ c, before = xs ++ y :: c ∧ ys = c ++ i :: after := by
  induction xs generalizing before with
  | nil =>
    cases before with
    | nil =>
      obtain ⟨rfl, rfl⟩ := List.cons.inj h
      exact .inr (.inl ⟨rfl, rfl, rfl⟩)
    | cons b before =>
      obtain ⟨rfl, rfl⟩ := List.cons.inj h
      exact .inr (.inr ⟨before, rfl, rfl⟩)
  | cons x xs ih =>
    cases before with
    | nil =>
      obtain ⟨rfl, rfl⟩ := List.cons.inj h
      exact .inl ⟨xs, rfl, rfl⟩
    | cons b before =>
      obtain ⟨rfl, htail⟩ := List.cons.inj h
      rcases ih htail with ⟨c, rfl, rfl⟩ | ⟨rfl, rfl, rfl⟩ | ⟨c, rfl, rfl⟩
      · exact .inl ⟨c, rfl, rfl⟩
      · exact .inr (.inl ⟨rfl, rfl, rfl⟩)
      · exact .inr (.inr ⟨c, rfl, rfl⟩)

/-- The machine instruction for an instruction of a program, between those before and those after
it. For a loop delimiter it depends on the loop's body. -/
inductive OpAt (before after : Program) : Instruction → Op → Prop
  | act (e : Effect) (o : Int) : OpAt before after (.act e o) (e.op o)
  | enter (o exit : Int) (body rest : Program) (hbody : body.Balanced)
      (h : after = body ++ .leave exit :: rest) :
      OpAt before after (.enter o) (.jumpIfZero o (body.width + 3 : Nat))
  | leave (o entry : Int) (outer body : Program) (hbody : body.Balanced)
      (h : before = outer ++ .enter entry :: body) :
      OpAt before after (.leave o) (.jumpIfNotZero o (body.width + 3 : Nat))

theorem OpAt.extend {before after : Program} {i : Instruction} {op : Op}
    (h : OpAt before after i op)
    (outer rest : Program) : OpAt (outer ++ before) (after ++ rest) i op := by
  cases h with
  | act e o => exact .act e o
  | enter o exit body rest' hbody h =>
    refine .enter o exit body (rest' ++ rest) hbody ?_
    rw [h, List.append_assoc]
    rfl
  | leave o entry outer' body hbody h =>
    refine .leave o entry (outer ++ outer') body hbody ?_
    rw [h, List.append_assoc]

namespace Nest

variable {code : Array Word} {before after : Program}

/-- **At the address of each instruction stand its words.** -/
theorem exists_placed (n : Nest) {address : Nat} (h : Placed code address n.encode)
    {i : Instruction} (hsplit : n.program = before ++ i :: after) :
    ∃ op, Placed code (address + before.width) op.words ∧ OpAt before after i op := by
  induction n generalizing address before after with
  | done => simp [program] at hsplit
  | act e o rest ih =>
    cases before with
    | nil =>
      obtain ⟨rfl, rfl⟩ := List.cons.inj hsplit
      exact ⟨e.op o, h.left, .act e o⟩
    | cons j before =>
      obtain ⟨rfl, htail⟩ := List.cons.inj hsplit
      obtain ⟨op, hplaced, hop⟩ := ih h.right htail
      have hop := hop.extend [.act e o] []
      rw [List.append_nil] at hop
      rw [Program.width_cons, Instruction.width_act, ← Op.length_words, ← Nat.add_assoc]
      exact ⟨op, hplaced, hop⟩
  | loop entry body exit rest ihBody ihRest =>
    obtain ⟨henter, hbody, hleave, hrest⟩ := placed_loop h
    rw [length_encode] at henter hleave hrest
    cases before with
    | nil =>
      obtain ⟨rfl, rfl⟩ := List.cons.inj hsplit
      exact ⟨_, henter, .enter entry exit body.program rest.program ⟨body, rfl⟩ rfl⟩
    | cons j before =>
      obtain ⟨rfl, htail⟩ := List.cons.inj hsplit
      rw [Program.width_cons, Instruction.width_enter, ← Nat.add_assoc]
      rcases append_cons_cases htail with ⟨c, hc, rfl⟩ | ⟨rfl, rfl, rfl⟩ | ⟨c, rfl, hc⟩
      · obtain ⟨op, hplaced, hop⟩ := ihBody hbody hc
        exact ⟨op, hplaced, hop.extend [.enter entry] (.leave exit :: rest.program)⟩
      · exact ⟨_, hleave, .leave exit entry [] body.program ⟨body, rfl⟩ rfl⟩
      · obtain ⟨op, hplaced, hop⟩ := ihRest hrest hc
        have hop := hop.extend (.enter entry :: (body.program ++ [.leave exit])) []
        rw [List.append_nil] at hop
        refine ⟨op, ?_, by simpa using hop⟩
        have haddress : address + 3 + Program.width (body.program ++ .leave exit :: c) =
            address + 3 + (body.program.width + 3) + Program.width c := by
          simp only [Program.width_append, Program.width_cons, Instruction.width_leave]
          omega
        rw [haddress]
        exact hplaced

/-! ## Steps at addresses -/

variable {settings : Settings}

/-- The words of an instruction in the encoding of a whole nest. -/
theorem exists_placed_of_program (n : Nest) {i : Instruction}
    (hsplit : n.program = before ++ i :: after) :
    ∃ op, Placed n.encode.toArray before.width op.words ∧ OpAt before after i op := by
  obtain ⟨op, hplaced, hop⟩ := n.exists_placed (.whole n.encode) hsplit
  rw [Nat.zero_add] at hplaced
  exact ⟨op, hplaced, hop⟩

theorem size_encode (n : Nest) : n.encode.toArray.size = n.program.width := by
  rw [List.size_toArray, length_encode]

theorem step_act (n : Nest) (s : State) {e : Effect} {o : Int}
    (hsplit : n.program = before ++ .act e o :: after) :
    (s.machine before.width).step n.encode.toArray settings =
      (e.run settings o s).progress before.width fun _ => Program.width (before ++ [.act e o]) := by
  obtain ⟨op, hplaced, hop⟩ := n.exists_placed_of_program hsplit
  cases hop
  rw [Tapecode.step_act s hplaced]
  simp

/-- At the start of a loop the machine goes on with the loop's body, or after the loop. -/
theorem step_enter (n : Nest) (settings : Settings) {o : Int}
    (hsplit : n.program = before ++ .enter o :: after) :
    ∃ body exit rest, Program.Balanced body ∧ after = body ++ .leave exit :: rest ∧
      ∀ s : State, (s.machine before.width).step n.encode.toArray settings =
        (s.moveBy settings o).progress before.width
          (afterTest (Program.width (before ++ [.enter o]))
            (Program.width (before ++ .enter o :: (body ++ [.leave exit])))) := by
  obtain ⟨op, hplaced, hop⟩ := n.exists_placed_of_program hsplit
  cases hop with
  | enter o exit body rest hbody h =>
    refine ⟨body, exit, rest, hbody, h, fun s => ?_⟩
    subst h
    have hsize : before.width + 3 + (body.width + 3) ≤ n.encode.toArray.size := by
      rw [size_encode, hsplit]
      simp only [Program.width_append, Program.width_cons, Instruction.width_enter,
        Instruction.width_leave]
      omega
    have hinside : Program.width (before ++ [.enter o]) = before.width + 3 := by simp
    have houtside : Program.width (before ++ .enter o :: (body ++ [.leave exit])) =
        before.width + 3 + (body.width + 3) := by
      simp
      omega
    rw [Tapecode.step_enter s hplaced hsize, hinside, houtside]

/-- At the end of a loop the machine goes on with the loop's body, or after the loop. -/
theorem step_leave (n : Nest) (settings : Settings) {o : Int}
    (hsplit : n.program = before ++ .leave o :: after) :
    ∃ outer entry body, Program.Balanced body ∧ before = outer ++ .enter entry :: body ∧
      ∀ s : State, (s.machine before.width).step n.encode.toArray settings =
        (s.moveBy settings o).progress before.width
          (afterTest (Program.width (outer ++ [.enter entry]))
            (Program.width (before ++ [.leave o]))) := by
  obtain ⟨op, hplaced, hop⟩ := n.exists_placed_of_program hsplit
  cases hop with
  | leave o entry outer body hbody h =>
    refine ⟨outer, entry, body, hbody, h, fun s => ?_⟩
    subst h
    have hwidth : Program.width (outer ++ .enter entry :: body) = outer.width + 3 + body.width := by
      simp
      omega
    have hinside : Program.width (outer ++ [.enter entry]) =
        Program.width (outer ++ .enter entry :: body) + 3 - (body.width + 3) := by
      rw [hwidth]
      simp only [Program.width_append, Program.width_cons, Program.width_nil,
        Instruction.width_enter]
      omega
    have houtside : Program.width (outer ++ .enter entry :: body ++ [.leave o]) =
        Program.width (outer ++ .enter entry :: body) + 3 := by
      simp
      omega
    rw [Tapecode.step_leave s hplaced (by rw [hwidth]; omega), hinside, houtside]

/-- The run is over at the end of the program. -/
theorem step_end (n : Nest) (m : Machine) (h : m.counter = n.program.width) :
    m.step n.encode.toArray settings = .halted none m := by
  have hend : n.encode.toArray[m.counter]? = none := by
    apply Array.getElem?_eq_none
    have hsize := n.size_encode
    omega
  rw [Machine.step, hend]

end Nest

end Tapecode
