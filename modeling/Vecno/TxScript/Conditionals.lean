import Vecno.TxScript.Engine
import Vecno.Lib.Checked

/-!
# The condition stack and the branches it stands for

The open `OpIf`s recorded beside the engine as `Branch`es. Every step keeps `cond_stack` their
entries, so `is_executing` holds exactly when every open branch is taken.
-/

namespace Vecno.TxScript

/-- The condition stacks, top first, that execution produces: `Skip` only on a stack that is not
executing, and a `True` or `False` only on `True`s. -/
def WellNested : List OpCond → Prop
  | [] => True
  | .skip :: cs => WellNested cs ∧ isExecuting cs = false
  | _ :: cs => ∀ c ∈ cs, c = .true

instance instDecidableWellNested : DecidablePred WellNested
  | [] => inferInstanceAs (Decidable True)
  | .skip :: cs =>
    have := instDecidableWellNested cs
    inferInstanceAs (Decidable (WellNested cs ∧ isExecuting cs = false))
  | .true :: cs => inferInstanceAs (Decidable (∀ c ∈ cs, c = .true))
  | .false :: cs => inferInstanceAs (Decidable (∀ c ∈ cs, c = .true))

/-- Every entry that is not `True` has only `Skip`s above it; top first, above is at a smaller
index. -/
def SkipsAbove (cs : List OpCond) : Prop :=
  ∀ (i j : Nat) (c : OpCond), j < i → cs[i]? = some c → c ≠ .true → cs[j]? = some OpCond.skip

example : WellNested [.skip, .skip, .false, .true] := by decide
example : ¬WellNested [.skip, .true] := by decide

theorem WellNested.skipsAbove {cs : List OpCond} (h : WellNested cs) : SkipsAbove cs := by
  unfold SkipsAbove
  induction cs with
  | nil =>
    intro i j c _ hi
    simp at hi
  | cons d cs ih =>
    intro i j c hji hi hc
    obtain ⟨i, rfl⟩ : ∃ i', i = i' + 1 := Nat.exists_eq_add_one_of_ne_zero (by omega)
    rw [List.getElem?_cons_succ] at hi
    cases d with
    | skip =>
      -- the top `Skip` is above the entry; below it the stack is well nested again
      cases j with
      | zero => rfl
      | succ j => exact ih h.1 i j c (by omega) hi hc
    | true => exact absurd (h c (List.mem_of_getElem? hi)) hc
    | false => exact absurd (h c (List.mem_of_getElem? hi)) hc

/-! ### Open branches -/

/-- An `OpIf` or `OpNotIf` still open: the branch its condition chose (`true` for the first),
`none` when it was met inside a branch not taken and never evaluated, and the number of `OpElse`s
met at its level since. -/
structure Branch where
  chosen : Option Bool
  elses : Nat
deriving DecidableEq, Repr

namespace Branch

/-- The code is in the chosen branch after an even number of `OpElse`s. -/
def taken (b : Branch) : Bool := b.chosen == some (b.elses % 2 == 0)

/-- The entry of `cond_stack` that stands for the branch. -/
def condOf (b : Branch) : OpCond :=
  match b.chosen with
  | none => .skip
  | some _ => if b.taken then .true else .false

variable {b : Branch}

theorem isSome_of_taken (h : b.taken = true) : b.chosen.isSome = true := by
  cases hc : b.chosen with
  | none => simp [taken, hc] at h
  | some _ => rfl

theorem condOf_eq_true : b.condOf = .true ↔ b.taken = true := by
  cases hc : b.chosen with
  | none => simp [condOf, taken, hc]
  | some _ => cases ht : b.taken <;> simp [condOf, hc, ht]

theorem condOf_else (b : Branch) : { b with elses := b.elses + 1 }.condOf = b.condOf.negate := by
  obtain ⟨chosen, elses⟩ := b
  cases chosen with
  | none => rfl
  | some t =>
    -- one more `OpElse` flips the parity
    have hflip : ((elses + 1) % 2 == 0) = !(elses % 2 == 0) := by
      rcases Nat.mod_two_eq_zero_or_one elses with h | h <;> simp [h, Nat.succ_mod_two_eq_zero_iff]
    cases t <;> cases hp : elses % 2 == 0 <;> simp_all [condOf, taken, OpCond.negate]

theorem condOf_open (t e : Bool) :
    (⟨if e then some t else none, 0⟩ : Branch).condOf =
      if e then (if t then .true else .false) else .skip := by
  cases e <;> cases t <;> rfl

end Branch

namespace Branches

/-- The open branches, innermost first, each evaluated exactly when every branch around it is
taken. -/
def Nested : List Branch → Prop
  | [] => True
  | b :: bs => b.chosen.isSome = bs.all Branch.taken ∧ Nested bs

/-- What an opcode does to the open branches, given the top of the data stack it finds: `OpIf`
and `OpNotIf` open a branch, evaluated only inside taken branches; `OpElse` counts one more at the
innermost; `OpEndIf` closes it. -/
def step (bs : List Branch) (op : Opcode) (top : Option (List UInt8)) : List Branch :=
  if op.value = Codes.opIf ∨ op.value = Codes.opNotIf then
    ⟨if bs.all Branch.taken then some ((top == some [1]) == (op.value == Codes.opIf)) else none,
      0⟩ :: bs
  else if op.value = Codes.opElse then
    match bs with
    | [] => []
    | b :: bs => { b with elses := b.elses + 1 } :: bs
  else if op.value = Codes.opEndIf then bs.tail
  else bs

variable {bs : List Branch} {op : Opcode} {top : Option (List UInt8)}

theorem step_opIf (hv : op.value = Codes.opIf) :
    step bs op top = ⟨if bs.all Branch.taken then some (top == some [1]) else none, 0⟩ :: bs := by
  unfold step
  rw [if_pos (.inl hv), hv, beq_self_eq_true, beq_true]

theorem step_opNotIf (hv : op.value = Codes.opNotIf) :
    step bs op top = ⟨if bs.all Branch.taken then some !(top == some [1]) else none, 0⟩ :: bs := by
  unfold step
  rw [if_pos (.inr hv), hv, show (Codes.opNotIf == Codes.opIf) = false by decide,
    beq_false]

theorem step_opElse (hv : op.value = Codes.opElse) (b : Branch) (bs : List Branch) :
    step (b :: bs) op top = { b with elses := b.elses + 1 } :: bs := by
  unfold step
  rw [hv, if_neg (by decide), if_pos rfl]

theorem step_opEndIf (hv : op.value = Codes.opEndIf) : step bs op top = bs.tail := by
  unfold step
  rw [hv, if_neg (by decide), if_neg (by decide), if_pos rfl]

theorem step_of_not_isConditional (hop : op.isConditional = false) : step bs op top = bs := by
  -- the four conditionals it names lie in `0x63..=0x68`
  have hne : ∀ v : UInt8, (0x63 ≤ v && v ≤ 0x68) = true → op.value ≠ v := fun v hv heq => by
    rw [Opcode.isConditional, heq, hv] at hop
    cases hop
  unfold step
  rw [if_neg (not_or.mpr ⟨hne _ (by decide), hne _ (by decide)⟩), if_neg (hne _ (by decide)),
    if_neg (hne _ (by decide))]

theorem isExecuting_map (h : Nested bs) :
    isExecuting (bs.map Branch.condOf) = bs.all Branch.taken := by
  cases bs with
  | nil => rfl
  | cons b bs =>
    rw [List.map_cons, isExecuting, List.all_cons]
    by_cases ht : b.taken = true
    · -- a taken branch was evaluated, so every branch around it is taken
      rw [Branch.condOf_eq_true.mpr ht, ht, ← h.1, Branch.isSome_of_taken ht]
      rfl
    · rw [Bool.eq_false_iff.mpr ht, Bool.false_and]
      exact beq_eq_false_iff_ne.mpr (mt Branch.condOf_eq_true.mp ht)

theorem forall_condOf_iff :
    (∀ c ∈ bs.map Branch.condOf, c = .true) ↔ ∀ b ∈ bs, b.taken = true := by
  simp only [List.forall_mem_map, Branch.condOf_eq_true]

/-- The entries of the open branches have the shape of a condition stack. -/
theorem wellNested_map (h : Nested bs) : WellNested (bs.map Branch.condOf) := by
  induction bs with
  | nil => trivial
  | cons b bs ih =>
    rw [List.map_cons]
    cases hc : b.chosen with
    | none =>
      have hskip : b.condOf = .skip := by simp only [Branch.condOf, hc]
      rw [hskip]
      refine ⟨ih h.2, ?_⟩
      rw [isExecuting_map h.2, ← h.1, hc]
      rfl
    | some t =>
      -- an evaluated branch has only taken branches around it, whose entries are `True`
      have hall : ∀ c ∈ bs.map Branch.condOf, c = .true :=
        forall_condOf_iff.mpr (List.all_eq_true.mp (by rw [← h.1, hc]; rfl))
      cases hcond : b.condOf with
      | skip =>
        simp only [Branch.condOf, hc] at hcond
        split at hcond <;> cases hcond
      | true => exact hall
      | false => exact hall

theorem nested_open (h : Nested bs) (t : Bool) :
    Nested (⟨if bs.all Branch.taken then some t else none, 0⟩ :: bs) := by
  refine ⟨?_, h⟩
  cases bs.all Branch.taken <;> rfl

theorem nested_else {b : Branch} (h : Nested (b :: bs)) :
    Nested ({ b with elses := b.elses + 1 } :: bs) :=
  h

end Branches

namespace TxScriptEngine

variable (other : Semantics) {vm vm' : TxScriptEngine} {op : Opcode}

/-- `OpIf` and `OpNotIf` read `[1]` as true and the empty vector as false. -/
theorem popCondition_eq_ok {b : Bool} (h : vm.popCondition = .ok (b, vm')) :
    b = (vm.dstack.head? == some [1]) ∧ vm'.condStack = vm.condStack := by
  unfold popCondition at h
  split at h
  · cases h
  · next buf rest hds =>
    rw [hds]
    split at h
    · cases h
    · next hlen =>
      split at h
      · next x hlast =>
        split at h
        · next hx =>
          cases h
          subst hx
          -- a vector of at most one byte whose last byte is `1` is `[1]`
          refine ⟨?_, rfl⟩
          rcases buf with _ | ⟨y, _ | ⟨z, zs⟩⟩
          · cases hlast
          · cases hlast
            rfl
          · simp at hlen
        · cases h
      · next hlast =>
        cases h
        rw [List.getLast?_eq_none_iff] at hlast
        subst hlast
        exact ⟨rfl, rfl⟩

/-- What `OpIf` and `OpNotIf` push: by the top of the data stack when executing, `Skip`
otherwise. -/
theorem pushCondition_condStack {whenTrue whenFalse : OpCond}
    (h : vm.pushCondition whenTrue whenFalse = .ok vm') :
    vm'.condStack = (if isExecuting vm.condStack then
      (if vm.dstack.head? == some [1] then whenTrue else whenFalse) else .skip) :: vm.condStack := by
  unfold pushCondition at h
  cases hex : isExecuting vm.condStack with
  | true =>
    cases hp : vm.popCondition with
    | error e => simp [hex, hp] at h
    | ok p =>
      obtain ⟨b, vm0⟩ := p
      obtain ⟨hb, hcs⟩ := popCondition_eq_ok hp
      simp only [hex, hp, if_true] at h
      cases h
      rw [hb, hcs]
      rfl
  | false =>
    simp only [hex, Bool.false_eq_true, if_false] at h
    cases h
    rfl

theorem opElse_condStack (h : vm.opElse = .ok vm') :
    ∃ c cs, vm.condStack = c :: cs ∧ vm'.condStack = c.negate :: cs := by
  unfold opElse at h
  split at h
  · cases h
  · cases h
    exact ⟨_, _, ‹_›, rfl⟩

theorem opEndIf_condStack (h : vm.opEndIf = .ok vm') : ∃ c, vm.condStack = c :: vm'.condStack := by
  unfold opEndIf at h
  split at h
  · cases h
  · cases h
    exact ⟨_, ‹_›⟩

/-- What `execute` of an opcode can do: run one of the four conditionals that succeed, or run an
opcode that is not a conditional, which leaves the condition stack alone. -/
theorem executeOp_cases (h : vm.executeOp other op = .ok vm') :
    (op.value = Codes.opIf ∧ vm.opIf = .ok vm') ∨ (op.value = Codes.opNotIf ∧ vm.opNotIf = .ok vm') ∨
      (op.value = Codes.opElse ∧ vm.opElse = .ok vm') ∨
      (op.value = Codes.opEndIf ∧ vm.opEndIf = .ok vm') ∨
      (op.isConditional = false ∧ vm'.condStack = vm.condStack) := by
  unfold executeOp at h
  split_ifs at h with hif hnotif hver helse hendif
  · exact .inl ⟨hif, h⟩
  · exact .inr (.inl ⟨hnotif, h⟩)
  · exact .inr (.inr (.inl ⟨helse, h⟩))
  · exact .inr (.inr (.inr (.inl ⟨hendif, h⟩)))
  · refine .inr (.inr (.inr (.inr ⟨?_, ?_⟩)))
    · -- the value is none of the six conditionals, so outside `0x63..=0x68`
      simp only [Opcode.isConditional, Codes.opIf, Codes.opNotIf, Codes.opVerIf,
        Codes.opVerNotIf, Codes.opElse, Codes.opEndIf, Bool.and_eq_false_iff,
        decide_eq_false_iff_not, not_or, ← UInt8.toNat_inj, UInt8.le_iff_toNat_le,
        UInt8.reduceToNat] at *
      omega
    · obtain ⟨s, -, h⟩ := Except.bind_eq_ok.mp h
      cases h
      rfl

theorem countOpcode_condStack (h : vm.countOpcode op = .ok vm') :
    vm'.condStack = vm.condStack ∧ vm'.dstack = vm.dstack := by
  unfold countOpcode at h
  split_ifs at h <;> cases h <;> exact ⟨rfl, rfl⟩

theorem executeOp_of_runOpcode (h : vm.runOpcode other op = .ok vm') :
    vm.executeOp other op = .ok vm' := by
  unfold runOpcode at h
  split at h
  · obtain ⟨u, -, h⟩ := Except.bind_eq_ok.mp h
    exact h
  · exact h

/-- The step lemma on one opcode: `execute_opcode` steps `cond_stack` as the open branches step. -/
theorem executeOpcode_branches {bs : List Branch} (hvm : vm.condStack = bs.map Branch.condOf)
    (hbs : Branches.Nested bs) (h : vm.executeOpcode other op = .ok vm') :
    vm'.condStack = (Branches.step bs op vm.dstack.head?).map Branch.condOf ∧
      Branches.Nested (Branches.step bs op vm.dstack.head?) := by
  obtain ⟨vm1, h1, h⟩ := Except.bind_eq_ok.mp h
  obtain ⟨hcs1, hds1⟩ := countOpcode_condStack h1
  rw [← hds1]
  rw [← hcs1] at hvm
  split at h
  · rcases executeOp_cases other (executeOp_of_runOpcode other h) with
      ⟨hv, h⟩ | ⟨hv, h⟩ | ⟨hv, h⟩ | ⟨hv, h⟩ | ⟨hop, hcs⟩
    · -- `OpIf` opens a branch on the condition it pops, or a skipped one
      rw [Branches.step_opIf hv, List.map_cons, Branch.condOf_open, pushCondition_condStack h, hvm,
        Branches.isExecuting_map hbs]
      exact ⟨rfl, Branches.nested_open hbs _⟩
    · rw [Branches.step_opNotIf hv, List.map_cons, Branch.condOf_open, pushCondition_condStack h,
        hvm, Branches.isExecuting_map hbs]
      refine ⟨?_, Branches.nested_open hbs _⟩
      cases vm1.dstack.head? == some [1] <;> rfl
    · -- `OpElse` negates the entry of the innermost branch
      obtain ⟨c, cs, hcs, hcs'⟩ := opElse_condStack h
      rw [hvm] at hcs
      obtain ⟨b, bs', rfl, hb, hbs'⟩ := List.map_eq_cons_iff.mp hcs
      rw [Branches.step_opElse hv, hcs', List.map_cons, Branch.condOf_else, hb, hbs']
      exact ⟨rfl, Branches.nested_else hbs⟩
    · obtain ⟨c, hcs⟩ := opEndIf_condStack h
      rw [hvm] at hcs
      obtain ⟨b, bs', rfl, -, hbs'⟩ := List.map_eq_cons_iff.mp hcs
      rw [Branches.step_opEndIf hv, List.tail_cons, hbs']
      exact ⟨rfl, hbs.2⟩
    · rw [Branches.step_of_not_isConditional hop, hcs, hvm]
      exact ⟨rfl, hbs⟩
  · -- not executing, and not a conditional: the opcode is passed over
    next hrun =>
    cases h
    have hop : op.isConditional = false :=
      Bool.eq_false_iff.mpr fun hc => hrun (by rw [hc, Bool.or_true])
    rw [Branches.step_of_not_isConditional hop]
    exact ⟨hvm, hbs⟩

theorem executeStep_ok {verifyOnlyPush : Bool} :
    vm.executeStep other verifyOnlyPush (.ok op) =
      if op.isDisabled then .error (.opcodeDisabled op.debug)
      else if op.alwaysIllegal then .error (.opcodeReserved op.debug)
      else if verifyOnlyPush && !op.isPushOpcode then .error .signatureScriptNotPushOnly
      else vm.executeOpcode other op >>= fun vm =>
        if vm.astack.length + vm.dstack.length > maxStackSize then
          .error (.stackSizeExceeded (vm.astack.length + vm.dstack.length) maxStackSize)
        else .ok vm := by
  simp only [executeStep, Except.ok_bind]
  split_ifs <;> rfl

/-- A pass of the script loop that succeeds has run `execute_opcode` on a parsed opcode. -/
theorem executeStep_eq_ok {verifyOnlyPush : Bool} {opcode : Except TxScriptError Opcode}
    (h : vm.executeStep other verifyOnlyPush opcode = .ok vm') :
    ∃ op, opcode = .ok op ∧ vm.executeOpcode other op = .ok vm' := by
  cases opcode with
  | error e => cases h
  | ok op =>
    rw [executeStep_ok] at h
    split_ifs at h
    obtain ⟨vm1, h1, h⟩ := Except.bind_eq_ok.mp h
    split at h
    · cases h
    · cases h
      exact ⟨op, rfl, h1⟩

/-- A pass of the script loop that also steps the open branches, by the top of the data stack it
finds. -/
def executeStepBranches (verifyOnlyPush : Bool) (st : TxScriptEngine × List Branch)
    (opcode : Except TxScriptError Opcode) :
    Except TxScriptError (TxScriptEngine × List Branch) := do
  let vm ← st.1.executeStep other verifyOnlyPush opcode
  let op ← opcode
  pure (vm, Branches.step st.2 op st.1.dstack.head?)

/-- The step lemma: a pass of the script loop that succeeds is matched by the pass that also steps
the open branches, and `cond_stack` stays their entries. -/
theorem executeStep_branches {verifyOnlyPush : Bool} {opcode : Except TxScriptError Opcode}
    {bs : List Branch} (hvm : vm.condStack = bs.map Branch.condOf) (hbs : Branches.Nested bs)
    (h : vm.executeStep other verifyOnlyPush opcode = .ok vm') :
    ∃ bs', executeStepBranches other verifyOnlyPush (vm, bs) opcode = .ok (vm', bs') ∧
      vm'.condStack = bs'.map Branch.condOf ∧ Branches.Nested bs' := by
  obtain ⟨op, rfl, hop⟩ := executeStep_eq_ok other h
  refine ⟨_, ?_, executeOpcode_branches other hvm hbs hop⟩
  rw [executeStepBranches, h]
  rfl

/-- The run lemma: the loop that also steps the open branches succeeds wherever the script loop
does, on the same engine states. -/
theorem foldlM_executeStep_branches {verifyOnlyPush : Bool}
    {opcodes : List (Except TxScriptError Opcode)} {bs : List Branch}
    (hvm : vm.condStack = bs.map Branch.condOf) (hbs : Branches.Nested bs)
    (h : opcodes.foldlM (executeStep other verifyOnlyPush) vm = .ok vm') :
    ∃ bs', opcodes.foldlM (executeStepBranches other verifyOnlyPush) (vm, bs) = .ok (vm', bs') ∧
      vm'.condStack = bs'.map Branch.condOf ∧ Branches.Nested bs' :=
  Except.foldlM_simulation (fun vm bs => vm.condStack = bs.map Branch.condOf ∧ Branches.Nested bs)
    (fun _ _ _ _ hR hstep => executeStep_branches other hR.1 hR.2 hstep) ⟨hvm, hbs⟩ h

/-- An opcode that is not a conditional runs, after the limits, exactly when the engine is
executing. -/
theorem executeOpcode_of_not_isConditional {P : Prop} [Decidable P]
    (hP : isExecuting vm.condStack = true ↔ P) (hop : op.isConditional = false) :
    vm.executeOpcode other op = vm.countOpcode op >>= fun vm1 =>
      if P then vm1.runOpcode other op else pure vm1 := by
  unfold executeOpcode
  cases h1 : vm.countOpcode op with
  | error e => rfl
  | ok vm1 =>
    simp only [Except.ok_bind]
    rw [(countOpcode_condStack h1).1, hop, Bool.or_false]
    by_cases hp : P
    · rw [if_pos hp, hP.mpr hp, if_pos rfl]
    · rw [if_neg hp, Bool.eq_false_iff.mpr (mt hP.mp hp)]
      rfl

/-- In every state the script loop reaches, opcode by opcode from a condition stack that stands
for some open branches (the empty one of a new script among them), `cond_stack` holds one entry per
open `OpIf` or `OpNotIf`, innermost on top: `Skip` for one met inside a branch not taken, else `True`
exactly when the code is in the branch its condition and the `OpElse`s since chose. So every entry
that is not `True` has only `Skip`s above it, the top-only `is_executing` holds exactly when every
open branch is taken, and an opcode that is not a conditional runs, after the limits, exactly
then. -/
theorem executeScript_skipsAbove (script : List UInt8) (verifyOnlyPush : Bool) {bs : List Branch}
    (hvm : vm.condStack = bs.map Branch.condOf) (hbs : Branches.Nested bs) (n : Nat)
    (h : ((parseScript script).take n).foldlM (executeStep other verifyOnlyPush) vm = .ok vm') :
    ∃ bs', ((parseScript script).take n).foldlM (executeStepBranches other verifyOnlyPush)
        (vm, bs) = .ok (vm', bs') ∧
      vm'.condStack = bs'.map Branch.condOf ∧ SkipsAbove vm'.condStack ∧
      (isExecuting vm'.condStack = true ↔ ∀ b ∈ bs', b.taken = true) ∧
      ∀ op : Opcode, op.isConditional = false →
        vm'.executeOpcode other op = vm'.countOpcode op >>= fun vm1 =>
          if ∀ b ∈ bs', b.taken = true then vm1.runOpcode other op else pure vm1 := by
  obtain ⟨bs', hrun, hcs, hbs'⟩ := foldlM_executeStep_branches other hvm hbs h
  have hex : isExecuting vm'.condStack = true ↔ ∀ b ∈ bs', b.taken = true := by
    rw [hcs, Branches.isExecuting_map hbs', List.all_eq_true]
  have hskips : SkipsAbove vm'.condStack := by
    rw [hcs]
    exact (Branches.wellNested_map hbs').skipsAbove
  exact ⟨bs', hrun, hcs, hskips, hex, fun _ hop => executeOpcode_of_not_isConditional other hex hop⟩

/-- Pushes put their data on the stack and `OpTrue` a true. -/
def pushSemantics : Semantics := fun op s =>
  if op.value = Codes.opTrue then .ok { s with dstack := [1] :: s.dstack }
  else .ok { s with dstack := op.data :: s.dstack }

/-- `OpTrue OpIf OpFalse OpIf OpTrue OpIf OpElse OpEndIf OpElse` from a new engine: a taken branch,
one not taken with a conditional skipped inside it, and that one's `OpElse`, which takes it. -/
theorem executeScript_skipsAbove_nested :
    (⟨⟨[], [], 0⟩, []⟩ : TxScriptEngine).condStack = ([] : List Branch).map Branch.condOf ∧
      Branches.Nested [] ∧
      ((parseScript [0x51, 0x63, 0x00, 0x63, 0x51, 0x63, 0x67, 0x68, 0x67]).take 9).foldlM
          (executeStep pushSemantics false) ⟨⟨[], [], 0⟩, []⟩ =
        .ok ⟨⟨[], [], 6⟩, [.true, .true]⟩ ∧
      ∃ bs', ((parseScript [0x51, 0x63, 0x00, 0x63, 0x51, 0x63, 0x67, 0x68, 0x67]).take 9).foldlM
          (executeStepBranches pushSemantics false) (⟨⟨[], [], 0⟩, []⟩, []) =
          .ok (⟨⟨[], [], 6⟩, [.true, .true]⟩, bs') ∧
        [OpCond.true, .true] = bs'.map Branch.condOf ∧ SkipsAbove [OpCond.true, .true] ∧
        (isExecuting [OpCond.true, .true] = true ↔ ∀ b ∈ bs', b.taken = true) ∧
        ∀ op : Opcode, op.isConditional = false →
          (⟨⟨[], [], 6⟩, [.true, .true]⟩ : TxScriptEngine).executeOpcode pushSemantics op =
            (⟨⟨[], [], 6⟩, [.true, .true]⟩ : TxScriptEngine).countOpcode op >>= fun vm1 =>
              if ∀ b ∈ bs', b.taken = true then vm1.runOpcode pushSemantics op else pure vm1 :=
  ⟨rfl, trivial, by decide,
    @executeScript_skipsAbove pushSemantics ⟨⟨[], [], 0⟩, []⟩ ⟨⟨[], [], 6⟩, [.true, .true]⟩
      [0x51, 0x63, 0x00, 0x63, 0x51, 0x63, 0x67, 0x68, 0x67] false [] rfl trivial 9 (by decide)⟩

end TxScriptEngine

end Vecno.TxScript
