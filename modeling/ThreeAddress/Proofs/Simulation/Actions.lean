import ThreeAddress.Proofs.Allocator.Cells
import ThreeAddress.Proofs.Lowering

/-!
Actions of allocation and the code made of them.  A piece of code stands at a position of the program (`At`).  What is
proved of runs is any property `W s T` of a state and the calls from there on that holds if it holds after the next
line, a call being one step that may end in any state within `Returns` (`Closed`).

Main statement: if the actions must lead to `Q` on registers and cells, and `W` holds of the states of the machine that
show such registers and cells, then it holds of the states before their code (`Lowered.sim_actions`).
-/

namespace ThreeAddress

theorem Asm.place?_eq_some {P : List Asm} (hP : (P.filterMap Asm.label?).Nodup) {q : Nat} {l : Label}
    (hq : P[q]? = some (.label l)) : Asm.place? P l = some q := by
  obtain ⟨hlt, hline⟩ := List.getElem?_eq_some_iff.1 hq
  refine List.findIdx?_eq_some_iff_getElem.2 ⟨hlt, by simp [hline], fun i hi => ?_⟩
  intro h
  have hi' : P[i]? = some (.label l) := by
    rw [List.getElem?_eq_getElem (by omega)]
    exact congrArg some (of_decide_eq_true h)
  have := eq_of_nodup_filterMap hP hi' hq rfl rfl
  omega

/-! ### Properties of runs -/

/-- The property holds if it holds after the next line. -/
structure Closed (P : List Asm) (W : Machine → List Call → Prop) : Prop where
  exec : ∀ {s s' : Machine} {a : Asm} {T : List Call}, P[s.pc]? = some a → s.exec? P a = some s' → W s' T → W s T
  call : ∀ {s : Machine} {c : Call} {T : List Call}, P[s.pc]? = some (.call c.callee) → s.Passes c.args →
    (∀ s', s.Returns c.result s' → W s' T) → W s (c :: T)

theorem Closed.lines {P : List Asm} {W : Machine → List Call → Prop} (hW : Closed P W) {l : List Asm}
    (hl : ∀ a ∈ l, a.isStraight = true) {s : Machine} {T : List Call} (hat : At P s.pc l) (h : W (s.lines l) T) :
    W s T := by
  induction l generalizing s with
  | nil => exact h
  | cons a l ih =>
    obtain ⟨ha, hat⟩ := hat.cons
    have hs := hl a List.mem_cons_self
    refine hW.exec ha (s.exec?_of_isStraight P hs) (ih (fun b hb => hl b (List.mem_cons_of_mem a hb)) ?_ h)
    rw [s.pc_line hs]
    exact hat

/-! ### Registers and cells on the machine -/

/-- The state of the machine shows these registers and cells, those of temporaries with a home. -/
structure Shows (home : Temp → Option Int) (s : Machine) (σ : Cells) : Prop where
  reg : σ.reg = s.word
  cell : ∀ ⦃t o⦄, home t = some o → σ.cell t = s.wordAt (s.get .s0 + o)

namespace Shows

variable {home : Temp → Option Int} {s : Machine} {σ : Cells} {r : Reg} {t : Temp} {o : Int}

theorem jump (h : Shows home s σ) (q : Nat) : Shows home { s with pc := q } σ := { h with }

theorem set (h : Shows home s σ) (hfp : Reg.s0 ≠ r) {x : Int} {w : Word} (hx : BitVec.ofInt 32 x = w) :
    Shows home (s.set r x) (σ.write r w) where
  reg := by rw [s.word_set, hx, ← h.reg]; rfl
  cell := by
    intro t o ht
    rw [s.get_set_of_ne hfp]
    exact h.cell ht

theorem store (h : Shows home s σ) (hu : ∀ ⦃t u o⦄, home t = some o → home u = some o → t = u) (ht : home t = some o)
    (r : Reg) : Shows home (s.store (s.get .s0 + o) (s.get r)) (σ.store r t) where
  reg := h.reg
  cell := by
    intro u p hp
    rw [Machine.get_store]
    by_cases e : u = t
    · subst e
      cases Option.some.inj (ht.symm.trans hp)
      rw [σ.cell_store_self, h.reg, Machine.wordAt, s.mem_store_self]
      rfl
    · have hne : s.get .s0 + p ≠ s.get .s0 + o := by
        intro he
        have hpo : p = o := by omega
        exact e (hu (hpo ▸ hp) ht)
      rw [σ.cell_store_of_ne r e, Machine.wordAt, s.mem_store_of_ne hne]
      exact h.cell hp

end Shows

namespace Lowered

variable {f : Func} {o : Options} (p : Lowered f o)

abbrev codeOf (τ : List Action) : List Asm := τ.flatMap (Action.code p.subroutine.home?)

/-- In state `s`, a function entered in state `e` is in its body, with these registers and cells. -/
structure InBody (e s : Machine) (σ : Cells) : Prop where
  frame : InFrameBut f.named e p.frame f.params.length s
  shown : Shows p.subroutine.home? s σ

/-- The action is one of the function's, and is neither a jump nor a label. -/
structure Performs (α : Action) : Prop where
  mem : α ∈ p.actions
  permits : p.final.Permits f.named α

variable {p} {P : List Asm} {W : Machine → List Call → Prop} {e s : Machine} {σ : Cells} {α : Action} {T : List Call}

theorem InBody.jump (h : p.InBody e s σ) (q : Nat) : p.InBody e { s with pc := q } σ := ⟨h.frame.jump q, h.shown.jump q⟩

theorem Performs.exists_home? (h : p.Performs α) {t : Temp} (ht : α.temp? = some t) :
    ∃ o', p.subroutine.home? t = some o' :=
  Subroutine.exists_home?_performAll _ h.mem ht

/-- A register that may be written is allocatable, if the registers named are. -/
theorem allocatable_of_mayWrite (hn : ∀ r ∈ f.named, r ∈ Reg.allocatable) {r : Reg} (h : p.final.MayWrite f.named r) :
    r ∈ Reg.allocatable :=
  h.elim (hn r) And.left

theorem InBody.write (hn : ∀ r ∈ f.named, r ∈ Reg.allocatable) (h : p.InBody e s σ) {r : Reg}
    (hr : p.final.MayWrite f.named r) {x : Int} {w : Word} (hx : BitVec.ofInt 32 x = w) :
    p.InBody e (s.set r x) (σ.write r w) := by
  have hfp : ∀ r ∈ Reg.allocatable, Reg.s0 ≠ r := by decide
  exact ⟨h.frame.set (hr.imp (fun hm => ⟨hm, hn r hm⟩) fun ha => p.mayWrite (.inr ha)) x,
    h.shown.set (hfp r (allocatable_of_mayWrite hn hr)) hx⟩

theorem InBody.store (h : p.InBody e s σ) {t : Temp} {o' : Int} (ht : p.subroutine.home? t = some o') (r : Reg) :
    p.InBody e (s.store (s.get .s0 + o') (s.get r)) (σ.store r t) :=
  ⟨h.frame.store (p.isHome ht) _, h.shown.store p.housed.unique ht r⟩

theorem mayWrite_of_result? {a : Asm} (h : p.final.Permits f.named (.native a)) {ρ : Reg → Word} {r : Reg} {w : Word}
    (ha : a.result? ρ = some (r, w)) : p.final.MayWrite f.named r := by
  cases a <;> simp only [Asm.result?, Option.some.injEq, Prod.mk.injEq, reduceCtorEq] at ha
  all_goals
    obtain ⟨rfl, -⟩ := ha
    exact h

theorem sim_action (hW : Closed P W) (hn : ∀ r ∈ f.named, r ∈ Reg.allocatable) (hα : p.Performs α)
    (hc : ∀ l, α ≠ .native (.call l))
    (hat : At P s.pc (α.code p.subroutine.home?)) (hb : p.InBody e s σ)
    (h : ∀ s' : Machine, s'.pc = s.pc + (α.code p.subroutine.home?).length → p.InBody e s' (σ.perform α) → W s' T) :
    W s T := by
  cases α with
  | store r t =>
    obtain ⟨o', ho⟩ := hα.exists_home? rfl
    have hcode : (Action.store r t).code p.subroutine.home? = [.sw r o' .frame] := by simp [Action.code, ho]
    rw [hcode] at hat h
    exact hW.exec hat.cons.1 rfl (h _ rfl ((hb.store ho r).jump _))
  | load r t =>
    obtain ⟨o', ho⟩ := hα.exists_home? rfl
    have hcode : (Action.load r t).code p.subroutine.home? = [.lw r o' .frame] := by simp [Action.code, ho]
    rw [hcode] at hat h
    exact hW.exec hat.cons.1 rfl (h _ rfl ((hb.write hn hα.permits (hb.shown.cell ho).symm).jump _))
  | native a =>
    cases hres : a.result? s.word with
    | some rw =>
      obtain ⟨r, w⟩ := rw
      have hperf : σ.perform (.native a) = σ.write r w := by simp only [Cells.perform, hb.shown.reg, hres]
      rw [hperf] at h
      have hw := mayWrite_of_result? hα.permits hres
      exact hW.exec hat.cons.1 (Machine.exec?_of_result? s hres) (h _ rfl ((hb.write hn hw BitVec.ofInt_toInt).jump _))
    | none =>
      have hperf : σ.perform (.native a) = σ := by simp only [Cells.perform, hb.shown.reg, hres]
      rw [hperf] at h
      cases a with
      | comment => exact hW.exec hat.cons.1 rfl (h _ rfl (hb.jump _))
      | call l => exact absurd rfl (hc l)
      | alu | li | unary => simp [Asm.result?] at hres
      | addi | lw | sw | j | branch | ret | label => exact absurd hα.permits id
  | comment text => exact hW.exec hat.cons.1 rfl (h _ rfl (hb.jump _))
  | note => exact h s rfl hb
  | label => exact absurd hα.permits id

/-- A call: the homes of temporaries are above the stack pointer. -/
theorem sim_call (hW : Closed P W) {c : Call} (hc : p.final.hasCalls = true)
    (hat : P[s.pc]? = some (.call c.callee)) (hb : p.InBody e s σ) (hp : σ.Passes c.args)
    (h : ∀ (s' : Machine) (σ' : Cells), s'.pc = s.pc + 1 → σ.Returns c.result σ' → p.InBody e s' σ' → W s' T) :
    W s (c :: T) := by
  have hpass : s.Passes c.args := by
    unfold Machine.Passes
    rw [← hb.shown.reg]
    exact hp
  refine hW.call hat hpass fun s' hr => ?_
  refine h s' ⟨s'.word, σ.cell⟩ hr.pc ⟨fun r hs => ?_, rfl, hr.result⟩ ⟨?_, rfl, fun t o' ht => ?_⟩
  · rw [hb.shown.reg]
    exact congrArg (BitVec.ofInt 32) (hr.saved r hs)
  · exact hb.frame.returns p.slots_le (p.hasCalls_frame.trans hc) hr
  · have hroom := Frame.room p.slots_le
    have habove : s.get .sp ≤ s.get .s0 + o' := by
      rw [hb.frame.sp]
      rcases p.isHome ht with ⟨i, h8, -, rfl⟩ | ⟨k, hk, rfl⟩
      · omega
      · rw [Subroutine.slotOffset_eq]
        omega
    show σ.cell t = _
    rw [hb.shown.cell ht, hr.fp, Machine.wordAt, Machine.wordAt, hr.mem _ habove]

/-- **Actions and their code.** -/
theorem sim_actions (hW : Closed P W) (hn : ∀ r ∈ f.named, r ∈ Reg.allocatable) {τ : List Action}
    (hτ : ∀ α ∈ τ, p.Performs α) (hat : At P s.pc (p.codeOf τ)) (hb : p.InBody e s σ)
    {Q : Cells → List Call → Prop} (hm : Cells.Must Q τ σ T)
    (h : ∀ (s' : Machine) (σ' : Cells) (T' : List Call), s'.pc = s.pc + (p.codeOf τ).length → p.InBody e s' σ' →
      Q σ' T' → W s' T') : W s T := by
  induction τ generalizing s σ T with
  | nil => exact h s σ T rfl hb hm
  | cons α τ ih =>
    have hα := hτ α List.mem_cons_self
    have hτ' : ∀ β ∈ τ, p.Performs β := fun β hβ => hτ β (List.mem_cons_of_mem α hβ)
    rw [codeOf, List.flatMap_cons] at hat h
    obtain ⟨hat, hat'⟩ := hat.append
    -- the rest runs from the position after the code of the first action
    have hrest : ∀ {s₁ : Machine} {σ₁ : Cells} {T₁ : List Call}, s₁.pc = s.pc + (α.code p.subroutine.home?).length →
        p.InBody e s₁ σ₁ → Cells.Must Q τ σ₁ T₁ → W s₁ T₁ := by
      intro s₁ σ₁ T₁ hpc hb₁ hm₁
      refine ih hτ' (by rw [hpc]; exact hat') hb₁ hm₁ fun s' σ' T' hpc' hb' hq => h s' σ' T' ?_ hb' hq
      rw [hpc', hpc, List.length_append, Nat.add_assoc]
    by_cases hcall : ∃ l, α = .native (.call l)
    · obtain ⟨l, rfl⟩ := hcall
      obtain ⟨c, T', rfl, rfl, hp, hm⟩ := hm
      exact sim_call hW hα.permits hat.cons.1 hb hp fun s' σ' hpc hr hb' => hrest hpc hb' (hm σ' hr)
    · have hc : ∀ l, α ≠ .native (.call l) := fun l hl => hcall ⟨l, hl⟩
      rw [Cells.must_cons hc] at hm
      exact sim_action hW hn hα hc hat hb fun s' hpc hb' => hrest hpc hb' hm

end Lowered

end ThreeAddress
