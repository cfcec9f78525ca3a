import ThreeAddress.Proofs.Allocator.Effect

/-!
Registers carry nothing into a block, and the caller-saved ones nothing across a call.  While the steps of a block are
emitted, every register that holds a temporary has been written in the block, and if a call may overwrite it then after
the last call (`Grounded`).  So that is true of every register that the block reads.

Main statement: in the events of each block, what is read was written before in the same block and not overwritten by a
call since, and the arguments of a call are loaded right before it (`registers_isolated`).
-/

namespace ThreeAddress

/-! ### What is read -/

/-- The registers that a line reads; a call does not say which ones it does. -/
def Asm.srcs : Asm → List Reg
  | .alu _ _ rs rt => [rs, rt]
  | .addi _ rs _ | .unary _ _ rs | .lw _ _ rs | .branch _ rs _ => [rs]
  | .sw rs _ base => [rs, base]
  | .li _ _ | .j _ | .call _ | .ret | .label _ | .comment _ => []

def Asm.isCall : Asm → Bool
  | .call _ => true
  | _ => false

def Action.srcs : Action → List Reg
  | .store r _ => [r]
  | .native a => a.srcs
  | .load _ _ | .label _ | .comment _ | .note _ => []

def Action.isCall : Action → Bool
  | .native a => a.isCall
  | _ => false

theorem Action.isCall_of_isMove {α : Action} (h : α.isMove = true) : α.isCall = false := by
  cases α with
  | native => simp [isMove] at h
  | store | load | label | comment | note => rfl

/-- The code makes no call, and reads the registers given and those that it has written itself. -/
def Asm.Covered (known : List Reg) : List Asm → Prop
  | [] => True
  | a :: code => a.isCall = false ∧ (∀ r ∈ a.srcs, r ∈ known) ∧ Covered (a.dst?.toList ++ known) code

theorem Asm.Covered.isCall {known : List Reg} {code : List Asm} (h : Covered known code) :
    ∀ a ∈ code, a.isCall = false := by
  induction code generalizing known with
  | nil => simp
  | cons a code ih => exact List.forall_mem_cons.2 ⟨h.1, ih h.2.2⟩

theorem BinaryOp.covered_select (op : BinaryOp) (rd lhs rhs : Reg) (rs : List Reg) :
    Asm.Covered (lhs :: rhs :: rs) (op.select rd lhs rhs) := by
  cases op with
  | and =>
    by_cases h : rd = rhs <;> simp [select, Asm.Covered, Asm.isCall, Asm.srcs, Asm.dst?, h]
  | _ => simp [select, Asm.Covered, Asm.isCall, Asm.srcs, Asm.dst?]

/-- The code of an instruction reads the registers of its operands. -/
theorem Instr.covered_select {i : Instr} (hc : i.isCall = false) (dsts srcs : List Reg) (exit : Label) :
    Asm.Covered srcs (i.select dsts srcs exit) := by
  cases i with
  | binary op =>
    cases dsts with
    | nil => trivial
    | cons rd =>
      rcases srcs with _ | ⟨lhs, _ | ⟨rhs, rs⟩⟩
      · trivial
      · trivial
      · exact op.covered_select rd lhs rhs rs
  | move | unary => cases dsts <;> cases srcs <;> simp [select, Asm.Covered, Asm.isCall, Asm.srcs]
  | const => cases dsts <;> simp [select, Asm.Covered, Asm.isCall, Asm.srcs]
  | branch => cases srcs <;> simp [select, Asm.Covered, Asm.isCall, Asm.srcs]
  | ret value =>
    cases value with
    | none => simp [select, Asm.Covered, Asm.isCall, Asm.srcs]
    | some =>
      cases srcs with
      | nil => trivial
      | cons rs => by_cases h : rs = .result <;> simp [select, Asm.Covered, Asm.isCall, Asm.srcs, h]
  | jump | mark | memo => simp [select, Asm.Covered, Asm.isCall, Asm.srcs]
  | call => simp [Instr.isCall] at hc

namespace Alloc

/-! ### Registers written in a block -/

/-- The event of a step writes the register.  A call does so if it has a result. -/
def Writes (e : Step × Action) (r : Reg) : Prop :=
  e.2.dst? = some r ∨ (e.2.isCall = true ∧ e.1.instr.dsts ≠ [] ∧ r = .result)

/-- The register has been written, and if calls may overwrite it then there was none after that. -/
def Fresh (past : List (Step × Action)) (r : Reg) : Prop :=
  ∃ before e after, past = before ++ e :: after ∧ Writes e r ∧ (r ∈ Reg.callerSaved → ∀ x ∈ after, x.2.isCall = false)

/-- Whatever an event reads has been written before it. -/
def Isolated (events : List (Step × Action)) : Prop :=
  ∀ past e rest, events = past ++ e :: rest → ∀ r ∈ e.2.srcs, Fresh past r

variable {past more : List (Step × Action)} {e : Step × Action} {r : Reg}

theorem Fresh.append (h : Fresh past r) (hm : r ∈ Reg.callerSaved → ∀ x ∈ more, x.2.isCall = false) :
    Fresh (past ++ more) r := by
  obtain ⟨before, w, after, rfl, hw, hafter⟩ := h
  refine ⟨before, w, after ++ more, by simp, hw, fun hr x hx => ?_⟩
  exact (List.mem_append.1 hx).elim (hafter hr x) (hm hr x)

theorem Fresh.concat (hw : Writes e r) : Fresh (past ++ [e]) r := ⟨past, e, [], rfl, hw, by simp⟩

/-- What is written by events without calls is fresh after them. -/
theorem Fresh.of_mem (he : e ∈ more) (hw : Writes e r) (hm : ∀ x ∈ more, x.2.isCall = false) :
    Fresh (past ++ more) r := by
  obtain ⟨before, after, rfl⟩ := List.append_of_mem he
  exact ⟨past ++ before, e, after, by simp, hw, fun _ x hx => hm x (by simp [hx])⟩

theorem Isolated.concat (h : Isolated past) (he : ∀ r ∈ e.2.srcs, Fresh past r) : Isolated (past ++ [e]) := by
  intro done x rest heq
  -- the event is the new one, or one of those before it
  rcases List.eq_nil_or_concat rest with rfl | ⟨rest', y, rfl⟩
  · obtain ⟨rfl, hx⟩ := List.append_inj' heq rfl
    cases hx
    exact he
  · rw [List.concat_eq_append, ← List.cons_append, ← List.append_assoc] at heq
    obtain ⟨rfl, -⟩ := List.append_inj' heq rfl
    exact h done x rest' rfl

/-- What holds of registers while a block is emitted: all that was read had been written, and so has every register that
holds a temporary. -/
structure Grounded (f : RegisterFile) (past : List (Step × Action)) : Prop where
  isolated : Isolated past
  bound : ∀ t r, f.binding? t = some r → Fresh past r

variable {exit : Label} {s : Step} {ss : List Step} {f f' f'' : RegisterFile} {τ : List Action}
  {τs : List (List Action)}

namespace Grounded

theorem of_resetBlock (f : RegisterFile) : Grounded f.resetBlock [] :=
  ⟨fun _ _ _ h => by simp at h, fun t r h => by simp at h⟩

/-- An event that is no call.  What is in a register after it was there before, or the event writes the register. -/
theorem emit (h : Grounded f past) (hc : e.2.isCall = false) (hs : ∀ r ∈ e.2.srcs, Fresh past r)
    (hb : ∀ t r, f'.binding? t = some r → f.binding? t = some r ∨ Writes e r) : Grounded f' (past ++ [e]) := by
  refine ⟨h.isolated.concat hs, fun t r ht => ?_⟩
  rcases hb t r ht with ht | hw
  · exact (h.bound t r ht).append fun _ => by simpa using hc
  · exact .concat hw

/-- A temporary that is taken out of its register leaves the others where they are. -/
theorem without (h : Grounded f past) (t : Temp) : Grounded (f.without t) past :=
  ⟨h.isolated, fun u r hu => h.bound u r (RegisterFile.binding?_of_without hu)⟩

theorem moves (h : Grounded f past) (hm : Moves s f τ f') : Grounded f' (past ++ τ.map (s, ·)) := by
  induction hm generalizing past with
  | done => simpa using h
  | remark text _ ih =>
    have := ih (h.emit (e := (s, .comment text)) rfl (by simp [Action.srcs]) fun t r hb => .inl hb)
    simpa using this
  | @save _ _ _ q u hb _ _ ih =>
    have := ih (h.emit (e := (s, .store q u)) rfl (by simpa [Action.srcs] using h.bound u q hb) fun t r hb => .inl hb)
    simpa using this
  | @fetch f₀ _ _ q u _ _ ih =>
    have hload : ∀ t r, (f₀.bind u q).binding? t = some r → f₀.binding? t = some r ∨ Writes (s, .load q u) r := by
      intro t r hb
      rcases RegisterFile.binding?_of_bind hb with ⟨-, rfl⟩ | hb
      · exact .inr (.inl rfl)
      · exact .inl hb
    have := ih (h.emit (e := (s, .load q u)) rfl (by simp [Action.srcs]) hload)
    simpa using this
  | free t _ ih => exact ih (h.without t)

theorem stores (h : Grounded f past) (hτ : ∀ α ∈ τ, ∃ t r, f.binding? t = some r ∧ α = .store r t) :
    Grounded f (past ++ τ.map (s, ·)) := by
  induction τ generalizing past with
  | nil => simpa using h
  | cons α τ ih =>
    obtain ⟨t, r, hb, rfl⟩ := hτ α List.mem_cons_self
    have := ih (h.emit (e := (s, .store r t)) rfl (by simpa [Action.srcs] using h.bound t r hb) fun t r hb => .inl hb)
      fun α hα => hτ α (List.mem_cons_of_mem _ hα)
    simpa using this

theorem writeBack (h : Grounded f past) (live : TempSet) : Grounded f (past ++ (f.stores live).map (s, ·)) := by
  refine h.stores fun α hα => ?_
  obtain ⟨t, r, -, hb, rfl⟩ := RegisterFile.mem_stores.1 hα
  exact ⟨t, r, hb, rfl⟩

theorem code {known : List Reg} {code : List Asm} (h : Grounded f past) (hk : ∀ r ∈ known, Fresh past r)
    (hc : Asm.Covered known code) : Grounded f (past ++ (code.map Action.native).map (s, ·)) := by
  induction code generalizing past known with
  | nil => simpa using h
  | cons a code ih =>
    obtain ⟨ha, hsrcs, hc⟩ := hc
    have hg : Grounded f (past ++ [(s, .native a)]) := h.emit ha (fun r hr => hk r (hsrcs r hr)) fun t r hb => .inl hb
    have hk' : ∀ r ∈ a.dst?.toList ++ known, Fresh (past ++ [(s, .native a)]) r := by
      intro r hr
      rcases List.mem_append.1 hr with hr | hr
      · exact .concat (.inl (Option.mem_toList.1 hr))
      · exact (hk r hr).append fun _ => by simpa [Action.isCall] using ha
    have := ih hg hk' hc
    simpa using this

end Grounded

/-! ### Steps -/

theorem Moves.isCall (h : Moves s f τ f') : ∀ e ∈ τ.map (s, ·), e.2.isCall = false := by
  intro e he
  obtain ⟨α, hα, rfl⟩ := List.mem_map.1 he
  exact Action.isCall_of_isMove (h.isMove α hα)

/-- The registers that stand for temporaries have been written once the moves are done. -/
theorem Grounded.supplied (h : Grounded f past) (hm : Moves s f τ f') {ops : List Operand} {rs : List Reg}
    (hs : List.Forall₂ (Supplies f τ) ops rs) (ht : ∀ op ∈ ops, op.reg? = none) :
    ∀ r ∈ rs, Fresh (past ++ τ.map (s, ·)) r := by
  induction hs with
  | nil => simp
  | @cons op q _ _ hop _ ih =>
    obtain ⟨hop', ht⟩ := List.forall_mem_cons.1 ht
    refine List.forall_mem_cons.2 ⟨?_, ih ht⟩
    cases op with
    | reg => simp [Operand.reg?] at hop'
    | temp t =>
      rcases hop.2 t rfl with hb | hl
      · exact (h.bound t q hb).append fun _ => hm.isCall
      · exact .of_mem (List.mem_map_of_mem hl) (.inl rfl) hm.isCall

/-- The register claimed for a result is written by the code. -/
theorem Grounded.claims {dsts srcs : List Reg} (hc : s.instr.isCall = false) (hlen : srcs.length = s.instr.srcs.length)
    (hcl : Claims f s.instr.dsts dsts f')
    (h : Grounded f (past ++ ((s.instr.select dsts srcs exit).map Action.native).map (s, ·))) :
    Grounded f' (past ++ ((s.instr.select dsts srcs exit).map Action.native).map (s, ·)) := by
  generalize hd : s.instr.dsts = ops at hcl
  cases hcl with
  | none | named | kept => exact h
  | taken t q =>
    refine ⟨h.isolated, fun u r hb => ?_⟩
    rcases RegisterFile.binding?_of_bind hb with ⟨-, rfl⟩ | hb
    · obtain ⟨a, ha, hq⟩ := Instr.exists_mem_select hd hc hlen r exit
      refine .of_mem (List.mem_map_of_mem (List.mem_map_of_mem ha)) (.inl hq) fun e he => ?_
      simp only [List.map_map, List.mem_map] at he
      obtain ⟨b, hb, rfl⟩ := he
      exact (Instr.covered_select hc _ _ exit).isCall b hb
    · exact h.bound u r hb

/-- Across a call, only callee-saved registers keep what they hold; the result arrives in its register. -/
theorem Grounded.call {dst : Option Temp} {l : Label} {args : List Operand} (h : Grounded f past)
    (hi : s.instr = .call (dst.map .temp) l args) (hc : Crosses f f') :
    Grounded (received f' dst) (past ++ [(s, .native (.call l))]) := by
  refine ⟨h.isolated.concat (by simp [Action.srcs, Asm.srcs]), fun t r hb => ?_⟩
  have hold : f'.binding? t = some r → Fresh (past ++ [(s, .native (.call l))]) r := by
    intro hb
    obtain ⟨hb, hr⟩ := hc.kept t r hb
    exact (h.bound t r hb).append fun hr' => absurd hr' (Reg.notMem_callerSaved hr)
  cases dst with
  | none => exact hold hb
  | some d =>
    rcases RegisterFile.binding?_of_bind hb with ⟨-, rfl⟩ | hb
    · exact .concat (.inr ⟨rfl, by simp [hi, Instr.dsts], rfl⟩)
    · exact hold hb

/-- **A step reads what the block has written.** -/
theorem Effect.grounded (h : Effect exit s f τ f') (ht : s.instr.TempsOnly) (hg : Grounded f past) :
    Grounded f' (past ++ τ.map (s, ·)) := by
  have hsrcs : ∀ op ∈ s.instr.srcs, op.reg? = none := fun op hop => ht op (List.mem_append_left _ hop)
  cases h with
  | @straight _ _ τ dsts srcs hc _ hm hsup hcl =>
    have hcode := (hg.moves hm).code (hg.supplied hm hsup hsrcs) (Instr.covered_select hc dsts srcs exit) (s := s)
    have := (Grounded.claims hc hsup.length_eq.symm hcl hcode).writeBack s.liveOut (s := s)
    simpa using this
  | @leaving _ τ srcs hl hm hsup =>
    have hc : s.instr.isCall = false := by
      cases hi : s.instr <;> simp [hi, Instr.leaves, Instr.flow] at hl <;> rfl
    -- the stores come between the moves and the code, and write no register
    have hfresh : ∀ r ∈ srcs, Fresh (past ++ τ.map (s, ·) ++ (f'.stores s.liveOut).map (s, ·)) r := by
      intro r hr
      refine (hg.supplied hm hsup hsrcs r hr).append fun _ e he => ?_
      obtain ⟨α, hα, rfl⟩ := List.mem_map.1 he
      obtain ⟨t, q, -, -, rfl⟩ := RegisterFile.mem_stores.1 hα
      rfl
    have := ((hg.moves hm).writeBack s.liveOut (s := s)).code hfresh (Instr.covered_select hc [] srcs exit) (s := s)
    simpa using this
  | @call f₁ f₂ f₃ τ dst l args hi _ hm₁ hm₂ hc =>
    -- after the call the only caller-saved register in use is that of the result, which the stores read
    have hcall := ((hg.moves hm₁).moves hm₂).call hi hc
    have hresult : ∀ α ∈ dst.toList.map (Action.store .result),
        ∃ t r, (received f₃ dst).binding? t = some r ∧ α = .store r t := by
      intro α hα
      obtain ⟨t, ht, rfl⟩ := List.mem_map.1 hα
      cases Option.mem_toList.1 ht
      exact ⟨t, .result, by rw [received, RegisterFile.binding?_bind, if_pos rfl], rfl⟩
    have := (hcall.stores hresult (s := s)).writeBack s.liveOut (s := s)
    simpa using this

/-! ### Blocks -/

def attributed (ss : List Step) (τs : List (List Action)) : List (Step × Action) :=
  (ss.zip τs).flatMap fun p => p.2.map (p.1, ·)

theorem Effects.grounded (h : Effects exit f ss τs f') (ht : ∀ s ∈ ss, s.instr.TempsOnly) (hg : Grounded f past) :
    Grounded f' (past ++ attributed ss τs) := by
  induction h generalizing past with
  | nil => simpa [attributed] using hg
  | cons he _ ih =>
    obtain ⟨hs, ht⟩ := List.forall_mem_cons.1 ht
    have := ih ht (he.grounded hs hg)
    simpa [attributed] using this

/-- The moves and stores of an effect are those around the code of a step. -/
theorem Effect.rendered (h : Effect exit s f τ f') : Rendered exit s τ := by
  have hstores : ∀ (f : RegisterFile), ∀ α ∈ f.stores s.liveOut, α.isStore = true := by
    intro f α hα
    obtain ⟨t, r, -, -, rfl⟩ := RegisterFile.mem_stores.1 hα
    rfl
  have htemps : ∀ ts : List Temp, Fits (ts.map .temp) (ts.map fun _ => .result) := by
    intro ts
    rw [Fits, List.forall₂_map_left_iff, List.forall₂_map_right_iff, List.forall₂_same]
    simp [Operand.reg?]
  cases h with
  | @straight _ _ τ dsts srcs _ hl hm hsup hcl =>
    refine ⟨τ, f'.stores s.liveOut, dsts, srcs, hm.isMove, hstores f', ?_, hsup.imp fun _ _ h => h.1, by simp [hl]⟩
    generalize s.instr.dsts = ops at hcl ⊢
    cases hcl with
    | none => exact .nil
    | named r => exact .cons (by rintro q ⟨⟩; rfl) .nil
    | kept | taken => exact .cons (by simp [Operand.reg?]) .nil
  | @leaving _ τ srcs hl hm hsup =>
    refine ⟨τ, f'.stores s.liveOut, [], srcs, hm.isMove, hstores f', ?_, hsup.imp fun _ _ h => h.1, by simp [hl]⟩
    rw [Instr.dsts_of_leaves hl]
    exact .nil
  | @call f₁ f₂ f₃ τ dst l args hi _ hm₁ hm₂ _ =>
    refine ⟨τ ++ passes args, dst.toList.map (.store .result) ++ (received f₃ dst).stores s.liveOut,
      dst.toList.map fun _ => .result, args.map fun _ => .result, (hm₁.trans hm₂).isMove, ?_, ?_, ?_, ?_⟩
    · refine List.forall_mem_append.2 ⟨fun α hα => ?_, hstores _⟩
      obtain ⟨t, -, rfl⟩ := List.mem_map.1 hα
      rfl
    · have hd : s.instr.dsts = dst.toList.map .temp := by
        rw [hi]
        cases dst <;> rfl
      rw [hd]
      exact htemps _
    · rw [show s.instr.srcs = args.map .temp by rw [hi]; rfl]
      exact htemps args
    · simp [hi, Instr.leaves, Instr.flow, Instr.select]

/-- If the step is a call, its arguments are loaded into the argument registers right before it, and the step has no
other code. -/
def Passing (s : Step) (τ : List Action) : Prop :=
  ∀ dst l args, s.instr = .call dst l args → ∃ (ts : List Temp) (before after : List Action), args = ts.map .temp ∧
    ts.length ≤ Reg.params.length ∧ τ = before ++ passes ts ++ .native (.call l) :: after ∧
    ∀ α ∈ before ++ after, ∀ a, α ≠ .native a

theorem Effect.passing (h : Effect exit s f τ f') : Passing s τ := by
  intro dst l args hi
  cases h with
  | straight hc => simp [hi, Instr.isCall] at hc
  | leaving hl => simp [hi, Instr.leaves, Instr.flow] at hl
  | @call f₁ f₂ f₃ τ d m ts hi' hlen hm =>
    obtain ⟨-, rfl, rfl⟩ := Instr.call.inj (hi.symm.trans hi')
    refine ⟨ts, τ, _, rfl, hlen, rfl, ?_⟩
    rintro α hα a rfl
    rcases List.mem_append.1 hα with hα | hα
    · exact absurd (hm.isMove _ hα) (by simp [Action.isMove])
    · rcases List.mem_append.1 hα with hα | hα
      · simp at hα
      · obtain ⟨t, r, -, -, h⟩ := RegisterFile.mem_stores.1 hα
        simp at h

theorem Effects.forall₂ {P : Step → List Action → Prop} (hP : ∀ {s f τ f'}, Effect exit s f τ f' → P s τ)
    (h : Effects exit f ss τs f') : List.Forall₂ P ss τs := by
  induction h with
  | nil => exact .nil
  | cons he _ ih => exact .cons (hP he) ih

/-- The events of a block: its label, then what its steps give, in order.  Every register that one of them reads has
been written by another before it, and not overwritten by a call since. -/
def Secluded (exit : Label) (b : Block) (τ : List Action) : Prop :=
  ∃ τs, List.Forall₂ (Rendered exit) b.steps τs ∧ τ = b.label.toList.map .label ++ τs.flatten ∧
    Isolated (attributed b.steps τs) ∧ List.Forall₂ Passing b.steps τs

theorem BlockEffects.secluded {bs : List Block} (h : BlockEffects exit f bs τs f')
    (ht : ∀ b ∈ bs, ∀ s ∈ b.steps, s.instr.TempsOnly) : List.Forall₂ (Secluded exit) bs τs := by
  induction h with
  | nil => exact .nil
  | @cons f₀ _ _ b _ σs _ he _ ih =>
    obtain ⟨hb, ht⟩ := List.forall_mem_cons.1 ht
    have hg := he.grounded hb (.of_resetBlock f₀)
    exact .cons ⟨σs, he.forall₂ Effect.rendered, rfl, hg.isolated, he.forall₂ Effect.passing⟩ (ih ht)

end Alloc

open FlowGraph in
/-- **Blocks and calls isolate registers.**  Let allocation succeed for a function that names no registers.  Its events
are stores of parameters, followed by what the reachable blocks give.  In each block, a register that is stored or read
by code has been written before in the same block, by a load, by code or as the result of a call; if it is caller-saved,
then there was no call after that.  The arguments of a call are loaded into the argument registers right before it. -/
theorem registers_isolated {f : Func} (ht : f.TempsOnly) {g : FlowGraph} (hg : ofFunc f = .ok g) (o : Options)
    (hok : ((Allocator.ofOptions o).accept g.withLiveness f.name f.params).outcome = .ok ()) :
    ∃ entry τs, Action.events ((Allocator.ofOptions o).accept g.withLiveness f.name f.params).actions =
        entry ++ τs.flatten ∧
      (∀ α ∈ entry, ∃ t r, α = .store r t ∧ (t, r) ∈ f.params.zip Reg.params) ∧
      List.Forall₂ (Alloc.Secluded f.name.exit) g.withLiveness.reachableBlocks τs := by
  have hplain := Alloc.plain_of_reachable ht (describes_withLiveness hg)
  obtain ⟨entry, τs, f₀, hτ, hentry, -, heffs⟩ := Alloc.function_effects (Alloc.valid_reset_ofOptions o _)
    (fun b hb => (hplain b hb).formed) (Alloc.yields_of_outcome hok)
  refine ⟨entry, τs, hτ, fun α hα => ?_, heffs.secluded fun b hb s hs => ?_⟩
  · obtain ⟨t, r, hα, hp, -⟩ := hentry α hα
    exact ⟨t, r, hα, hp⟩
  · exact (hplain b hb).temps _ (List.mem_map_of_mem hs)

open FlowGraph in
/-- With two registers, the parameter that is read before a call and after it is loaded twice. -/
theorem registers_isolated_caller : ∃ g, ofFunc .caller = .ok g ∧
    ((Allocator.ofOptions ⟨false, some 2⟩).accept g.withLiveness ⟨"f"⟩ [⟨0⟩, ⟨1⟩]).outcome = .ok () ∧
    ((Allocator.ofOptions ⟨false, some 2⟩).accept g.withLiveness ⟨"f"⟩ [⟨0⟩, ⟨1⟩]).actions.count (.load .t0 ⟨0⟩) = 2 ∧
    ∃ entry τs, Action.events
        ((Allocator.ofOptions ⟨false, some 2⟩).accept g.withLiveness ⟨"f"⟩ [⟨0⟩, ⟨1⟩]).actions = entry ++ τs.flatten ∧
      List.Forall₂ (Alloc.Secluded (Label.exit ⟨"f"⟩)) g.withLiveness.reachableBlocks τs := by
  have hg : ofFunc .caller = .ok ⟨[.ofInstrs 0 .returns none Func.caller.instrs], []⟩ := rfl
  have hok : ((Allocator.ofOptions ⟨false, some 2⟩).accept
      (FlowGraph.mk [.ofInstrs 0 .returns none Func.caller.instrs] []).withLiveness ⟨"f"⟩ [⟨0⟩, ⟨1⟩]).outcome =
      .ok () := by
    decide +kernel
  obtain ⟨entry, τs, hτ, -, hτs⟩ := registers_isolated (by decide) hg ⟨false, some 2⟩ hok
  exact ⟨_, hg, hok, by decide +kernel, entry, τs, hτ, hτs⟩

end ThreeAddress
