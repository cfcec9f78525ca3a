import ThreeAddress.Proofs.Allocator.Cells
import ThreeAddress.Proofs.Allocator.Written
import ThreeAddress.Liveness

/-!
Registers and cells hold the values of the temporaries.  `Holds` says it of every temporary that is in a register,
`Kept` of the cells of the temporaries in a set.  Both may be relied on before each step of a block and hold again
after its write-backs, for what is live there.
-/

namespace ThreeAddress

/-- The values without those of the given temporaries. -/
def Env.except (E : Env) (ts : List Temp) : Env := fun t => if t ∈ ts then none else E t

/-- Every register that holds a temporary holds its value. -/
def Holds (f : RegisterFile) (E : Env) (σ : Cells) : Prop :=
  ∀ ⦃t r v⦄, f.binding? t = some r → E t = some v → σ.reg r = v

/-- The cells of the temporaries in `L` hold their values. -/
def Kept (L : TempSet) (E : Env) (σ : Cells) : Prop := ∀ ⦃t v⦄, t ∈ L → E t = some v → σ.cell t = v

section

variable {a : Allocator} {f : RegisterFile} {E : Env} {σ : Cells} {L : TempSet} {t u : Temp} {r : Reg} {v x : Word}

theorem Env.except_eq_some {ts : List Temp} : E.except ts t = some v ↔ t ∉ ts ∧ E t = some v := by
  unfold Env.except
  split
  · simp [*]
  · simp [*]

theorem Env.except_nil (E : Env) : E.except [] = E := rfl

theorem Allocator.Valid.ne_zero (h : a.Valid) (hb : a.regs.binding? t = some r) : r ≠ .zero := by
  rintro rfl
  exact absurd (h.bound hb).1 (by decide)

theorem Allocator.Valid.temp_unique (h : a.Valid) (ht : a.regs.binding? t = some r) (hu : a.regs.binding? u = some r) :
    t = u :=
  Option.some.inj (((h.consistent t r).1 ht).symm.trans ((h.consistent u r).1 hu))

theorem Holds.without (h : Holds f E σ) (u : Temp) : Holds (f.without u) E σ := by
  intro t r v hb hv
  rw [RegisterFile.binding?_without] at hb
  split at hb
  · simp at hb
  · exact h hb hv

/-- A temporary that is put in a register has no value there yet. -/
theorem Holds.bind (h : Holds f E σ) (t : Temp) (r : Reg) : Holds (f.bind t r) (E.except [t]) σ := by
  intro u q v hb hv
  obtain ⟨hu, hv⟩ := Env.except_eq_some.1 hv
  rw [RegisterFile.binding?_bind, if_neg (by simpa using hu)] at hb
  split at hb
  · simp at hb
  · exact h hb hv

/-- A write to the register of a temporary gives it a value there. -/
theorem Holds.write (h : Holds a.regs (E.except [t]) σ) (hv : a.Valid) (hb : a.regs.binding? t = some r)
    (hx : ∀ v, E t = some v → x = v) : Holds a.regs E (σ.write r x) := by
  intro u q v hu hE
  by_cases e : u = t
  · subst e
    cases Option.some.inj (hb.symm.trans hu)
    rw [σ.reg_write_self (hv.ne_zero hb)]
    exact hx v hE
  · have hq : q ≠ r := fun hqr => e (hv.temp_unique hu (hqr ▸ hb))
    rw [σ.reg_write_of_ne hq]
    exact h hu (Env.except_eq_some.2 ⟨by simpa using e, hE⟩)

theorem Holds.except (h : Holds f E σ) (ts : List Temp) : Holds f (E.except ts) σ :=
  fun _ _ _ hb hv => h hb (Env.except_eq_some.1 hv).2

/-- A temporary that is put in a register has its value there once its cell is loaded. -/
theorem Holds.bind_load (h : Holds f E σ) (hk : Kept L E σ) (ht : t ∈ L) (hv : a.Valid) (ha : a.regs = f.bind t r) :
    Holds a.regs E (σ.write r (σ.cell t)) := by
  have hb : a.regs.binding? t = some r := by rw [ha, RegisterFile.binding?_bind, if_pos rfl]
  have hh : Holds a.regs (E.except [t]) σ := ha ▸ h.bind t r
  exact hh.write hv hb fun _ hE => hk ht hE

theorem Kept.store (h : Kept L E σ) (hh : Holds f E σ) (hb : f.binding? u = some r) : Kept L E (σ.store r u) := by
  intro t v ht hv
  by_cases e : t = u
  · subst e
    rw [σ.cell_store_self]
    exact hh hb hv
  · rw [σ.cell_store_of_ne r e]
    exact h ht hv

end

/-! ### Operands -/

namespace Alloc

variable {a : Allocator} {E : Env} {σ : Cells} {T : List Call} {L live : TempSet} {t : Temp} {pinned : List Reg}
  {s : Step}

/-- A register for a temporary that is read holds its value.  The pinned registers are as before, unless they can be all
of the pool. -/
theorem ensures_hold_read (hv : a.Valid) (hh : Holds a.regs E σ) (hk : Kept L E σ) (ht : t ∈ L) :
    Ensures (hold t true live pinned) a σ T fun r a' σ' T' =>
      T' = T ∧ a'.Valid ∧ Holds a'.regs E σ' ∧ Kept L E σ' ∧ a'.regs.binding? t = some r ∧
        (pinned.length < 2 → ∀ q ∈ pinned, σ'.reg q = σ.reg q) := by
  obtain ⟨r, a', τ, hd, hheld⟩ := hold_held hv t true live pinned
  refine Ensures.of_does hd ?_
  have hv' := hheld.valid hv
  have hb' := hheld.binding?
  cases hheld with
  | bound hb => exact ⟨rfl, hv, hh, hk, hb, fun _ _ _ => rfl⟩
  | free hb hr hn hl =>
    refine ⟨rfl, hv', hh.bind_load hk ht hv' rfl, hk, hb', fun _ q hq => ?_⟩
    exact σ.reg_write_of_ne (fun e : q = r => hn rfl (e ▸ hq)) _
  | @evicted u i hb hr hn hu hl =>
    have hk' := hk.store hh ((hv.consistent u r).2 hu)
    have hh' : Holds (a.regs.without u) E (σ.store r u) := hh.without u
    refine ⟨rfl, hv', hh'.bind_load hk' ht hv' rfl, hk', hb', fun _ q hq => ?_⟩
    exact (σ.store r u).reg_write_of_ne (fun e : q = r => hn rfl (e ▸ hq)) _
  | @forced i hb hr _ hall =>
    have hroom : ¬ pinned.length < 2 := fun hp => by
      obtain ⟨q, hq, hn⟩ := hv.exists_unpinned hp
      exact hn (hall q hq)
    cases hu : a.regs.occupant? r with
    | none =>
      rw [Allocator.emptied_of_none (a := a.advance i) hu] at hv' hb' ⊢
      exact ⟨rfl, hv', hh.bind_load hk ht hv' rfl, hk, hb', fun hp => absurd hp hroom⟩
    | some u =>
      rw [Allocator.emptied_of_some (a := a.advance i) hu] at hv' hb' ⊢
      have hk' := hk.store hh ((hv.consistent u r).2 hu)
      have hh' : Holds (a.regs.without u) E (σ.store r u) := hh.without u
      exact ⟨rfl, hv', hh'.bind_load hk' ht hv' rfl, hk', hb', fun hp => absurd hp hroom⟩

/-- A register for a temporary that is written; no register changes its contents yet. -/
theorem ensures_hold_write (hv : a.Valid) (hh : Holds a.regs E σ) (hk : Kept L E σ) :
    Ensures (hold t false live pinned) a σ T fun r a' σ' T' =>
      T' = T ∧ a'.Valid ∧ Holds a'.regs (E.except [t]) σ' ∧ Kept L E σ' ∧ σ'.reg = σ.reg ∧
        a'.regs.binding? t = some r := by
  obtain ⟨r, a', τ, hd, hheld⟩ := hold_held hv t false live pinned
  refine Ensures.of_does hd ?_
  have hv' := hheld.valid hv
  have hb' := hheld.binding?
  cases hheld with
  | bound hb => exact ⟨rfl, hv, hh.except [t], hk, rfl, hb⟩
  | free hb hr hn hl => exact ⟨rfl, hv', hh.bind t r, hk, rfl, hb'⟩
  | @evicted u i hb hr hn hu hl =>
    have hbu := (hv.consistent u r).2 hu
    exact ⟨rfl, hv', (hh.without u).bind t r, hk.store hh hbu, rfl, hb'⟩
  | forced _ _ hread => simp at hread

theorem Env.readAll_cons {op : Operand} {ops : List Operand} {xs : List Word}
    (h : E.readAll (op :: ops) = some xs) : ∃ x ys, E.read op = some x ∧ E.readAll ops = some ys ∧ xs = x :: ys := by
  simp only [Env.readAll, Option.bind_eq_bind, Option.bind_eq_some_iff, Option.pure_def, Option.some.injEq] at h
  obtain ⟨x, hx, ys, hys, rfl⟩ := h
  exact ⟨x, ys, hx, hys, rfl⟩

/-- Where the operands `ops` have been read into the registers `rs`. -/
structure Read (a : Allocator) (E : Env) (L : TempSet) (ops : List Operand) (rs : List Reg) (a' : Allocator)
    (σ' : Cells) : Prop where
  valid : a'.Valid
  holds : Holds a'.regs E σ'
  kept : Kept L E σ'
  length : rs.length = ops.length
  same : ops = [] → a' = a
  bound : ∀ {t}, ops = [.temp t] → ∃ r, a'.regs.binding? t = some r

/-- The operands of an instruction are read.  If the pool has room for them beside the pinned registers, the pinned
registers are as before, and the operands have their values. -/
theorem ensures_readAll (hv : a.Valid) (hh : Holds a.regs E σ) (hk : Kept L E σ) {ops : List Operand}
    (ht : ∀ op ∈ ops, ∃ t ∈ L, op = .temp t) :
    Ensures (readAll live pinned ops) a σ T fun rs a' σ' T' =>
      T' = T ∧ Read a E L ops rs a' σ' ∧ (pinned.length + ops.length ≤ 2 → (∀ q ∈ pinned, σ'.reg q = σ.reg q) ∧
        ∀ {xs}, E.readAll ops = some xs → rs.map σ'.reg = xs) := by
  induction ops generalizing a σ pinned with
  | nil =>
    refine Ensures.pure ⟨rfl, ⟨hv, hh, hk, rfl, fun _ => rfl, fun ht => by simp at ht⟩, fun _ => ⟨fun _ _ => rfl, ?_⟩⟩
    exact fun hxs => Option.some.inj hxs
  | cons op ops ih =>
    obtain ⟨t, htL, rfl⟩ := ht op List.mem_cons_self
    refine Ensures.bind (ensures_hold_read hv hh hk htL) ?_
    rintro r a₁ σ₁ T₁ ⟨rfl, hv₁, hh₁, hk₁, hb₁, hpin₁⟩
    refine Ensures.bind (ih hv₁ hh₁ hk₁ (fun op hop => ht op (List.mem_cons_of_mem _ hop))) ?_
    rintro rs a₂ σ₂ T₂ ⟨rfl, hr, hroom⟩
    refine Ensures.pure ⟨rfl, ⟨hr.valid, hr.holds, hr.kept, ?_, ?_, fun {t'} ht' => ?_⟩, fun hp => ?_⟩
    · rw [List.length_cons, List.length_cons, hr.length]
    · intro h
      simp at h
    · simp only [List.cons.injEq, Operand.temp.injEq] at ht'
      obtain ⟨rfl, hnil⟩ := ht'
      exact ⟨r, hr.same hnil ▸ hb₁⟩
    · rw [List.length_cons] at hp
      obtain ⟨hpin₂, hvals⟩ := hroom (by rw [List.length_cons]; omega)
      refine ⟨fun q hq => ?_, fun hxs => ?_⟩
      · rw [hpin₂ q (List.mem_cons_of_mem r hq), hpin₁ (by omega) q hq]
      · obtain ⟨x, ys, hx, hys, rfl⟩ := Env.readAll_cons hxs
        rw [List.map_cons, hvals hys, hpin₂ r List.mem_cons_self, hh₁ hb₁ hx]

/-- No instruction but a call reads more than two operands. -/
theorem length_srcs_le {i : Instr} (h : i.isCall = false) : i.srcs.length ≤ 2 := by
  cases i <;> simp [Instr.srcs, Instr.isCall] at h ⊢
  rename_i v
  cases v <;> simp

/-- Where the operands of instruction `i` have been given the registers `ds` and `rs`. -/
structure Resolved (i : Instr) (E : Env) (L : TempSet) (ds rs : List Reg) (a : Allocator) (σ : Cells) : Prop where
  valid : a.Valid
  holds : Holds a.regs (E.except i.defs) σ
  kept : Kept L E σ
  values : ∀ {xs}, E.readAll i.srcs = some xs → rs.map σ.reg = xs
  dst : ∀ {t}, i.dsts = [.temp t] → ∃ r, ds = [r] ∧ a.regs.binding? t = some r
  src : i.dsts = [] → ∀ {t}, i.srcs = [.temp t] → ∃ r, a.regs.binding? t = some r

/-- No instruction but a call writes more than one operand. -/
theorem dsts_shape {i : Instr} (h : i.isCall = false) : i.dsts = [] ∨ ∃ op, i.dsts = [op] := by
  cases i <;> simp [Instr.dsts, Instr.isCall] at h ⊢

theorem dsts_cases {i : Instr} (hc : i.isCall = false) (ht : i.TempsOnly) : i.dsts = [] ∨ ∃ t, i.dsts = [.temp t] := by
  rcases dsts_shape hc with h | ⟨op, h⟩
  · exact .inl h
  · obtain ⟨t, rfl⟩ := exists_temp (ht op (List.mem_append_right _ (h ▸ List.mem_singleton.2 rfl)))
    exact .inr ⟨t, h⟩

/-- A register is found for the one operand that an instruction writes, if it writes any. -/
theorem ensures_writeAll (hv : a.Valid) (hh : Holds a.regs E σ) (hk : Kept L E σ) {ops : List Operand}
    (hops : ops = [] ∨ ∃ t, ops = [.temp t]) :
    Ensures (writeAll live pinned ops) a σ T fun ds a' σ' T' =>
      T' = T ∧ a'.Valid ∧ Holds a'.regs (E.except (ops.filterMap Operand.temp?)) σ' ∧ Kept L E σ' ∧ σ'.reg = σ.reg ∧
        (∀ t, ops = [.temp t] → ∃ r, ds = [r] ∧ a'.regs.binding? t = some r) ∧ (ops = [] → a' = a) := by
  rcases hops with rfl | ⟨t, rfl⟩
  · exact Ensures.pure ⟨rfl, hv, hh.except _, hk, rfl, fun t h => by simp at h, fun _ => rfl⟩
  · refine Ensures.bind (ensures_hold_write hv hh hk) ?_
    rintro r a₁ σ₁ T₁ ⟨rfl, hv₁, hh₁, hk₁, hreg, hb⟩
    refine Ensures.quiet (Does.pure [] a₁)
      (Ensures.pure ⟨rfl, hv₁, hh₁, hk₁, hreg, fun u hu => ?_, fun h => by simp at h⟩)
    simp only [List.cons.injEq, Operand.temp.injEq, and_true] at hu
    exact ⟨r, rfl, hu ▸ hb⟩

/-- The operands of an instruction are resolved; what it reads has to be in the cells. -/
theorem ensures_resolve (hv : a.Valid) (hh : Holds a.regs E σ) (hk : Kept L E σ) (hc : s.instr.isCall = false)
    (ht : s.instr.TempsOnly) (hL : ∀ t ∈ s.instr.uses, t ∈ L) :
    Ensures (resolve s) a σ T fun p a' σ' T' => T' = T ∧ Resolved s.instr E L p.1 p.2 a' σ' := by
  have hn : (s.instr.srcs ++ s.instr.dsts).filterMap Operand.reg? = [] := List.filterMap_eq_nil_iff.2 ht
  have hsrc : ∀ op ∈ s.instr.srcs, ∃ t ∈ L, op = .temp t := by
    intro op hop
    obtain ⟨t, rfl⟩ := exists_temp (ht op (List.mem_append_left _ hop))
    exact ⟨t, hL t (List.mem_filterMap.2 ⟨_, hop, rfl⟩), rfl⟩
  unfold resolve
  simp only [hn]
  refine Ensures.bind (ensures_readAll hv hh hk hsrc) ?_
  rintro rs a₁ σ₁ T₁ ⟨rfl, hr, hroom⟩
  refine Ensures.bind (ensures_writeAll hr.valid hr.holds hr.kept (dsts_cases hc ht)) ?_
  rintro ds a₂ σ₂ T₂ ⟨rfl, hv₂, hh₂, hk₂, hreg, hdst, hsame⟩
  refine Ensures.pure ⟨rfl, hv₂, hh₂, hk₂, fun hxs => ?_, fun h => hdst _ h, fun hd t hs => ?_⟩
  · rw [hreg]
    exact (hroom (by simpa using length_srcs_le hc)).2 hxs
  · rw [hsame hd]
    exact hr.bound hs

/-! ### The code of an instruction -/

theorem must_define {code : List Asm} {d : Temp} {r : Reg} {w : Word}
    (hc : Asm.compute σ.reg code = some (Reg.write σ.reg r w)) (hh : Holds a.regs (E.except [d]) σ) (hv : a.Valid)
    (hb : a.regs.binding? d = some r) :
    Cells.Must (fun σ' T' => T' = T ∧ σ'.cell = σ.cell ∧ Holds a.regs (Function.update E d (some w)) σ')
      (code.map .native) σ T := by
  refine (Cells.must_compute hc).2 ⟨rfl, rfl, Holds.write ?_ hv hb fun v hE => ?_⟩
  · intro t q v hq hE
    obtain ⟨hne, hE⟩ := Env.except_eq_some.1 hE
    rw [Function.update_of_ne (by simpa using hne)] at hE
    exact hh hq (Env.except_eq_some.2 ⟨hne, hE⟩)
  · rw [Function.update_self] at hE
    exact Option.some.inj hE

/-- The code of an instruction computes its effect in the registers. -/
theorem must_select {i : Instr} {E' : Env} {ds rs : List Reg} (hr : Resolved i E L ds rs a σ) (ht : i.TempsOnly)
    (he : i.effect? E = some E') (exit : Label) :
    Cells.Must (fun σ' T' => T' = T ∧ σ'.cell = σ.cell ∧ Holds a.regs E' σ')
      ((i.select ds rs exit).map .native) σ T := by
  cases i with
  | move dst src =>
    obtain ⟨d, rfl⟩ := exists_temp (ht dst (by simp [Instr.srcs, Instr.dsts]))
    obtain ⟨x, hx, rfl⟩ := Option.map_eq_some_iff.1 he
    obtain ⟨r, rfl, hb⟩ := hr.dst rfl
    obtain ⟨q, rfl, hq⟩ := List.map_eq_singleton_iff.1 (hr.values (by simp [Env.readAll, Instr.srcs, hx]; rfl))
    exact must_define (by rw [← hq]; rfl) hr.holds hr.valid hb
  | const dst value =>
    obtain ⟨d, rfl⟩ := exists_temp (ht dst (by simp [Instr.srcs, Instr.dsts]))
    obtain ⟨r, rfl, hb⟩ := hr.dst rfl
    cases Option.some.inj he
    exact must_define rfl hr.holds hr.valid hb
  | unary op dst src =>
    obtain ⟨d, rfl⟩ := exists_temp (ht dst (by simp [Instr.srcs, Instr.dsts]))
    obtain ⟨x, hx, rfl⟩ := Option.map_eq_some_iff.1 he
    obtain ⟨r, rfl, hb⟩ := hr.dst rfl
    obtain ⟨q, rfl, hq⟩ := List.map_eq_singleton_iff.1 (hr.values (by simp [Env.readAll, Instr.srcs, hx]; rfl))
    exact must_define (by rw [← hq, ← UnaryOp.eval_select]; rfl) hr.holds hr.valid hb
  | binary op dst lhs rhs =>
    obtain ⟨d, rfl⟩ := exists_temp (ht dst (by simp [Instr.srcs, Instr.dsts]))
    obtain ⟨r, rfl, hb⟩ := hr.dst rfl
    simp only [Instr.effect?, Option.bind_eq_bind, Option.bind_eq_some_iff, Option.pure_def, Option.some.injEq] at he
    obtain ⟨x, hx, y, hy, rfl⟩ := he
    have hval : rs.map σ.reg = [x, y] := hr.values (by simp [Env.readAll, Instr.srcs, hx, hy])
    obtain ⟨p, ps, rfl, hp, hps⟩ := List.map_eq_cons_iff.1 hval
    obtain ⟨q, rfl, hq⟩ := List.map_eq_singleton_iff.1 hps
    refine must_define ?_ hr.holds hr.valid hb
    rw [← hp, ← hq]
    exact BinaryOp.run_select op r p q σ.reg
  | mark | memo =>
    cases Option.some.inj he
    exact ⟨rfl, rfl, Env.except_nil E ▸ hr.holds⟩
  | jump | branch | ret | call => simp [Instr.effect?] at he

/-! ### Write-backs -/

theorem ensures_writeBack (hh : Holds a.regs E σ)
    (hk : ∀ t ∈ L, ∀ v, E t = some v → a.regs.binding? t = none → σ.cell t = v) :
    Ensures (writeBack L) a σ T fun _ a' σ' T' => T' = T ∧ a' = a ∧ Holds a.regs E σ' ∧ Kept L E σ' := by
  -- what is still to come may have a wrong cell if it is in a register
  let I : List Temp → Allocator → Cells → Prop := fun l a' σ' => a' = a ∧ Holds a.regs E σ' ∧
    ∀ t ∈ L, ∀ v, E t = some v → (t ∈ l → a.regs.binding? t = none) → σ'.cell t = v
  refine (Ensures.forM I ?_ ⟨rfl, hh, fun t ht v hE hb => hk t ht v hE (hb ht)⟩).mono ?_
  · rintro u l a₁ σ₁ ⟨rfl, hh₁, hc₁⟩
    refine Ensures.ofState ?_
    split
    · rename_i r hb
      refine Ensures.emit_store ⟨rfl, rfl, hh₁, fun t ht v hE hl => ?_⟩
      by_cases e : t = u
      · subst e
        rw [σ₁.cell_store_self]
        exact hh₁ hb hE
      · rw [σ₁.cell_store_of_ne r e]
        exact hc₁ t ht v hE fun hm => hl ((List.mem_cons.1 hm).resolve_left e)
    · rename_i hb
      refine Ensures.pure ⟨rfl, rfl, hh₁, fun t ht v hE hl => hc₁ t ht v hE fun hm => ?_⟩
      rcases List.mem_cons.1 hm with rfl | hm
      · exact hb
      · exact hl hm
  · rintro - a' σ' T' ⟨rfl, rfl, hh', hc'⟩
    exact ⟨rfl, rfl, hh', fun t v ht hE => hc' t ht v hE fun hm => by simp at hm⟩

/-! ### Calls -/

theorem ensures_vacate (hv : a.Valid) (hh : Holds a.regs E σ) (hk : Kept L E σ) (live : TempSet) :
    Ensures (Reg.callerSaved.forM fun r => vacate live r) a σ T fun _ a' σ' T' =>
      T' = T ∧ a'.Valid ∧ Holds a'.regs E σ' ∧ Kept L E σ' := by
  let I : List Reg → Allocator → Cells → Prop := fun _ a' σ' => a'.Valid ∧ Holds a'.regs E σ' ∧ Kept L E σ'
  refine Ensures.forM I ?_ ⟨hv, hh, hk⟩
  rintro r l a₁ σ₁ ⟨hv₁, hh₁, hk₁⟩
  refine Ensures.ofState ?_
  split
  · rename_i t ho
    have hb : a₁.regs.binding? t = some r := (hv₁.consistent t r).2 ho
    split
    · refine Ensures.quiet (Does.report a₁ _) (Ensures.store ?_)
      exact Ensures.of_does (Does.forget a₁ t) ⟨rfl, hv₁.without t, hh₁.without t, hk₁.store hh₁ hb⟩
    · exact Ensures.of_does (Does.forget a₁ t) ⟨rfl, hv₁.without t, hh₁.without t, hk₁⟩
  · exact Ensures.pure ⟨rfl, hv₁, hh₁, hk₁⟩

theorem ensures_pass (hv : a.Valid) (hh : Holds a.regs E σ) (hk : Kept L E σ) {ps : List (Temp × Reg)}
    (hL : ∀ p ∈ ps, p.1 ∈ L) (hr : ∀ p ∈ ps, p.2 ∈ Reg.allocatable) (hd : (ps.map Prod.snd).Nodup) :
    Ensures (ps.forM fun p => pass p.1 p.2) a σ T fun _ a' σ' T' =>
      T' = T ∧ a'.Valid ∧ Holds a'.regs E σ' ∧ σ'.cell = σ.cell ∧ ∀ p ∈ ps, σ'.reg p.2 = σ.cell p.1 := by
  let I : List (Temp × Reg) → Allocator → Cells → Prop := fun l a' σ' => a'.Valid ∧ Holds a'.regs E σ' ∧
    σ'.cell = σ.cell ∧ ∃ done, ps = done ++ l ∧ ∀ p ∈ done, σ'.reg p.2 = σ.cell p.1
  refine (Ensures.forM I ?_ ⟨hv, hh, rfl, [], rfl, by simp⟩).mono ?_
  · rintro ⟨t, r⟩ l a₁ σ₁ ⟨hv₁, hh₁, hc₁, done, hps, hdone⟩
    have hmem : (t, r) ∈ ps := hps ▸ List.mem_append_right _ List.mem_cons_self
    have hv₂ := (hv₁.without t).bind t (hr _ hmem)
    have hb₂ : ((a₁.regs.without t).bind t r).binding? t = some r := by rw [RegisterFile.binding?_bind, if_pos rfl]
    refine Ensures.quiet (Does.forget a₁ t) (Ensures.load ?_)
    refine Ensures.of_does (Does.assign _ t r) ⟨rfl, hv₂, ?_, hc₁, done ++ [(t, r)], by simp [hps], fun p hp => ?_⟩
    · refine Holds.write ((hh₁.without t).bind t r) hv₂ hb₂ fun v hE => ?_
      rw [hc₁]
      exact hk (hL _ hmem) hE
    · rcases List.mem_append.1 hp with hp | hp
      · have hne : p.2 ≠ r := by
          rw [hps, List.map_append, List.nodup_append] at hd
          exact hd.2.2 _ (List.mem_map_of_mem hp) _ List.mem_cons_self
        exact (σ₁.reg_write_of_ne hne _).trans (hdone p hp)
      · rw [List.mem_singleton.1 hp]
        exact (σ₁.reg_write_self (hv₂.ne_zero hb₂) _).trans (congrFun hc₁ t)
  · rintro - a' σ' T' ⟨rfl, hv', hh', hc', done, hps, hdone⟩
    rw [List.append_nil] at hps
    exact ⟨rfl, hv', hh', hc', hps ▸ hdone⟩

theorem ensures_drop (hv : a.Valid) :
    Ensures (Reg.callerSaved.forM fun r => drop r) a σ T fun _ a' σ' T' =>
      T' = T ∧ a'.Valid ∧ σ' = σ ∧
        ∀ t r, a'.regs.binding? t = some r → a.regs.binding? t = some r ∧ r ∈ Reg.calleeSaved := by
  let I : List Reg → Allocator → Cells → Prop := fun l a' σ' => a'.Valid ∧ σ' = σ ∧
    ∀ t r, a'.regs.binding? t = some r → a.regs.binding? t = some r ∧ (r ∈ Reg.callerSaved → r ∈ l)
  refine (Ensures.forM I ?_ ⟨hv, rfl, fun t r hb => ⟨hb, id⟩⟩).mono ?_
  · rintro r l a₁ σ₁ ⟨hv₁, rfl, hb₁⟩
    refine Ensures.ofState ?_
    split
    · rename_i t ho
      refine Ensures.of_does (Does.forget a₁ t) ⟨rfl, hv₁.without t, rfl, fun u q hb => ?_⟩
      simp only [RegisterFile.binding?_without] at hb
      split at hb
      · simp at hb
      · rename_i hne
        obtain ⟨hq, hql⟩ := hb₁ u q hb
        refine ⟨hq, fun hc => (List.mem_cons.1 (hql hc)).resolve_left ?_⟩
        rintro rfl
        exact hne (hv₁.temp_unique hb ((hv₁.consistent t q).2 ho))
    · rename_i ho
      refine Ensures.pure ⟨rfl, hv₁, rfl, fun u q hb => ?_⟩
      obtain ⟨hq, hql⟩ := hb₁ u q hb
      refine ⟨hq, fun hc => (List.mem_cons.1 (hql hc)).resolve_left ?_⟩
      rintro rfl
      rw [(hv₁.consistent u q).1 hb] at ho
      simp at ho
  · rintro - a' σ' T' ⟨rfl, hv', rfl, hb'⟩
    refine ⟨rfl, hv', rfl, fun t r hb => ⟨(hb' t r hb).1, ?_⟩⟩
    rcases List.mem_append.1 (hv'.bound hb).1 with hc | hc
    · exact absurd ((hb' t r hb).2 hc) (by simp)
    · exact hc

theorem needTemps_eq_ok {i : Instr} {ops : List Operand} {ts : List Temp} (h : needTemps i ops = .ok ts) :
    ops = ts.map .temp := by
  induction ops generalizing ts with
  | nil =>
    cases Except.ok.inj h
    rfl
  | cons op ops ih =>
    cases op with
    | reg r => simp [needTemps, needTemp, bind, Except.bind] at h
    | temp t =>
      cases hts : needTemps i ops with
      | error e => simp [needTemps, needTemp, hts, bind, Except.bind] at h
      | ok us =>
        simp only [needTemps, needTemp, hts, bind, Except.bind, pure, Except.pure, Except.ok.injEq] at h
        rw [← h, ih hts, List.map_cons]

/-- A call that is accepted has temporaries as operands, and its arguments fit in registers. -/
theorem callTemps_eq_ok {i : Instr} {dst : Option Operand} {args : List Operand} {xs : List Temp} {d : Option Temp}
    (h : callTemps i dst args = .ok (xs, d)) :
    args = xs.map .temp ∧ dst = d.map .temp ∧ xs.length ≤ Reg.params.length := by
  unfold callTemps at h
  split at h
  · simp at h
  · rename_i hlen
    cases hts : needTemps i args with
    | error e => simp [hts, bind, Except.bind] at h
    | ok ts =>
      have hargs := needTemps_eq_ok hts
      have hlen' : ts.length ≤ Reg.params.length := by
        rw [hargs, List.length_map] at hlen
        exact Nat.le_of_not_lt hlen
      cases dst with
      | none =>
        simp only [hts, bind, Except.bind, pure, Except.pure, Except.ok.injEq, Prod.mk.injEq] at h
        obtain ⟨rfl, rfl⟩ := h
        exact ⟨hargs, rfl, hlen'⟩
      | some op =>
        cases op with
        | reg r => simp [hts, needTemp, bind, Except.bind] at h
        | temp t =>
          simp only [hts, needTemp, bind, Except.bind, pure, Except.pure, Except.ok.injEq, Prod.mk.injEq] at h
          obtain ⟨rfl, rfl⟩ := h
          exact ⟨hargs, rfl, hlen'⟩

theorem map_eq_of_readAll {xs : List Temp} {ws : List Word} {f : Temp → Word}
    (h : E.readAll (xs.map .temp) = some ws) (hf : ∀ t ∈ xs, ∀ v, E t = some v → f t = v) : xs.map f = ws := by
  induction xs generalizing ws with
  | nil => exact Option.some.inj h
  | cons t xs ih =>
    obtain ⟨x, ys, hx, hys, rfl⟩ := Env.readAll_cons h
    rw [List.map_cons, hf t List.mem_cons_self x hx, ih hys fun u hu => hf u (List.mem_cons_of_mem t hu)]

theorem map_zip_params {xs : List Temp} (h : xs.length ≤ Reg.params.length) :
    (xs.zip Reg.params).map Prod.snd = Reg.params.take xs.length := by
  rw [List.zip_eq_zip_take_min, Nat.min_eq_left h, List.take_length]
  exact List.map_snd_zip (by rw [List.length_take]; omega)

/-- The arguments stand in their registers once each has been loaded from its cell. -/
theorem passes_of_loaded {xs : List Temp} {ws : List Word} {σ' : Cells} (hlen : xs.length ≤ Reg.params.length)
    (hw : xs.map σ.cell = ws) (hp : ∀ p ∈ xs.zip Reg.params, σ'.reg p.2 = σ.cell p.1) : σ'.Passes ws := by
  have hws : ws.length = xs.length := by rw [← hw, List.length_map]
  calc ws = xs.map σ.cell := hw.symm
    _ = ((xs.zip Reg.params).map Prod.fst).map σ.cell := by rw [List.map_fst_zip hlen]
    _ = (xs.zip Reg.params).map fun p => σ.cell p.1 := List.map_map
    _ = (xs.zip Reg.params).map fun p => σ'.reg p.2 := List.map_congr_left fun p h => (hp p h).symm
    _ = ((xs.zip Reg.params).map Prod.snd).map σ'.reg := List.map_map.symm
    _ = (Reg.params.take ws.length).map σ'.reg := by rw [map_zip_params hlen, hws]

/-- A call, with its arguments in the cells: the call is made as it should be, and its result arrives. -/
theorem ensures_call (hv : a.Valid) (hh : Holds a.regs E σ) (hk : Kept L E σ) {xs : List Temp} {d : Option Temp}
    {l : Label} (hi : s.instr = .call (d.map .temp) l (xs.map .temp)) (hlen : xs.length ≤ Reg.params.length)
    (hL : ∀ t ∈ xs, t ∈ L) {ws : List Word} (hw : E.readAll (xs.map .temp) = some ws) (x : Option Word) (exit : Label) :
    Ensures (call s xs d exit) a σ (⟨l, ws, x⟩ :: T) fun _ a' σ' T' =>
      T' = T ∧ a'.Valid ∧ Holds a'.regs (E.receive (d.map .temp) x) σ' ∧ Kept L (E.except d.toList) σ' ∧
        ∀ t ∈ d, a'.regs.binding? t ≠ none := by
  have hsel : ∀ ds rs, s.instr.select ds rs exit = [.call l] := fun _ _ => by rw [hi]; rfl
  have hreg : ∀ p ∈ xs.zip Reg.params, p.2 ∈ Reg.allocatable := fun p hp =>
    Allocator.allocatable_of_mem_params (List.of_mem_zip hp).2
  unfold call
  simp only [hsel]
  refine Ensures.quiet (Does.change a _) (Ensures.quiet (Does.remark _ _) ?_)
  have hv₀ : (Allocator.mk a.regs a.cursor a.comments true a.spills).Valid := { hv with }
  refine Ensures.bind (ensures_vacate hv₀ hh hk s.liveIn) ?_
  rintro - a₁ σ₁ T₁ ⟨rfl, hv₁, hh₁, hk₁⟩
  refine Ensures.bind (ensures_pass hv₁ hh₁ hk₁ (fun p hp => hL _ (List.of_mem_zip hp).1) hreg ?_) ?_
  · rw [map_zip_params hlen]
    exact (List.take_sublist _ _).nodup (by decide)
  rintro - a₂ σ₂ T₂ ⟨rfl, hv₂, hh₂, hc₂, hp₂⟩
  have hpass : σ₂.Passes ws := passes_of_loaded hlen (map_eq_of_readAll hw fun t ht v hE => hk₁ (hL t ht) hE) hp₂
  refine Ensures.call (c := ⟨l, ws, x⟩) hpass fun σ₃ hret => ?_
  refine Ensures.bind (ensures_drop hv₂) ?_
  rintro - a₄ σ₄ T₄ ⟨rfl, hv₄, rfl, hb₄⟩
  have hh₄ : Holds a₄.regs E σ₄ := fun t r v hb hE => by
    obtain ⟨hb₂, hs⟩ := hb₄ t r hb
    rw [hret.saved r hs]
    exact hh₂ hb₂ hE
  have hk₄ : Kept L E σ₄ := fun t v ht hE => by
    rw [hret.cell, hc₂]
    exact hk₁ ht hE
  cases d with
  | none => exact Ensures.pure ⟨rfl, hv₄, hh₄, hk₄, by simp⟩
  | some t =>
    refine Ensures.quiet (Does.assign a₄ t .result) (Ensures.emit_store ⟨rfl, hv₄.bind t (by decide), ?_, ?_, ?_⟩)
    · intro u r v hb hE
      replace hE : Function.update E t x u = some v := hE
      by_cases e : u = t
      · subst e
        rw [RegisterFile.binding?_bind, if_pos rfl] at hb
        rw [Function.update_self] at hE
        cases Option.some.inj hb
        exact hret.result v hE
      · rw [Function.update_of_ne e] at hE
        exact (hh₄.bind t .result) hb (Env.except_eq_some.2 ⟨by simpa using e, hE⟩)
    · intro u v hu hE
      obtain ⟨hne, hE⟩ := Env.except_eq_some.1 hE
      exact (σ₄.cell_store_of_ne _ (by simpa using hne)).trans (hk₄ hu hE)
    · rintro u hu
      cases Option.some.inj hu
      simp [RegisterFile.binding?_bind]

/-! ### Parameters -/

/-- On entry to a function, parameters that come in registers are stored if they are needed; the others have to be in
their cells. -/
theorem ensures_takeParams (hv : a.Valid) (hh : Holds a.regs E σ) (g : FlowGraph) {params : List Temp}
    (hd : params.Nodup) (hreg : ∀ p ∈ params.zip Reg.params, ∀ v, E p.1 = some v → σ.reg p.2 = v)
    (hcell : ∀ t v, E t = some v → (∀ p ∈ params.zip Reg.params, p.1 ≠ t) → σ.cell t = v) :
    Ensures (takeParams g params) a σ T fun _ a' σ' T' => T' = T ∧ a'.Valid ∧ Kept (entryLive g) E σ' := by
  have hparams : ∀ p ∈ params.zip Reg.params, p.2 ∈ Reg.allocatable := fun p hp =>
    Allocator.allocatable_of_mem_params (List.of_mem_zip hp).2
  have hpairs : (params.zip Reg.params).Pairwise fun p q => p.1 ≠ q.1 ∧ p.2 ≠ q.2 := by
    have hr : Reg.params.Nodup := by decide
    rw [List.pairwise_iff_getElem]
    intro i k hi hk hik
    rw [List.length_zip] at hi hk
    simp only [List.getElem_zip]
    exact ⟨List.pairwise_iff_getElem.1 hd i k (by omega) (by omega) hik,
      List.pairwise_iff_getElem.1 hr i k (by omega) (by omega) hik⟩
  unfold takeParams
  generalize params.zip Reg.params = ps at *
  let I : List (Temp × Reg) → Allocator → Cells → Prop := fun l a' σ' => a'.Valid ∧ σ' = σ ∧ Holds a'.regs E σ ∧
    ∃ done, ps = done ++ l ∧ ∀ p ∈ done, a'.regs.binding? p.1 = some p.2
  refine Ensures.bind (Ensures.forM I ?_ ⟨hv, rfl, hh, [], rfl, by simp⟩) ?_
  · rintro ⟨t, r⟩ l a₁ σ₁ ⟨hv₁, rfl, hh₁, done, hps, hdone⟩
    have hmem : (t, r) ∈ ps := hps ▸ List.mem_append_right _ List.mem_cons_self
    refine Ensures.of_does (Does.assign a₁ t r) ⟨rfl, hv₁.bind t (hparams _ hmem), rfl, ?_, done ++ [(t, r)], ?_, ?_⟩
    · intro u q v hb hE
      by_cases e : u = t
      · subst e
        rw [RegisterFile.binding?_bind, if_pos rfl] at hb
        cases Option.some.inj hb
        exact hreg _ hmem v hE
      · exact hh₁.bind t r hb (Env.except_eq_some.2 ⟨by simpa using e, hE⟩)
    · rw [hps, List.append_assoc]
      rfl
    · intro p hp
      rcases List.mem_append.1 hp with hp | hp
      · rw [hps] at hpairs
        obtain ⟨hne₁, hne₂⟩ := (List.pairwise_append.1 hpairs).2.2 p hp _ List.mem_cons_self
        have hocc : a₁.regs.occupant? r ≠ some p.1 := by
          intro ho
          exact hne₂ (Option.some.inj ((hdone p hp).symm.trans ((hv₁.consistent p.1 r).2 ho)))
        rw [RegisterFile.binding?_bind, if_neg hne₁, if_neg hocc, hdone p hp]
      · cases List.mem_singleton.1 hp
        rw [RegisterFile.binding?_bind, if_pos rfl]
  · rintro - a₁ σ₁ T₁ ⟨rfl, hv₁, rfl, hh₁, done, hps, hdone⟩
    rw [List.append_nil] at hps
    subst hps
    refine (ensures_writeBack hh₁ fun t _ v hE hb => hcell t v hE fun p hp e => ?_).mono ?_
    · rw [← e, hdone p hp] at hb
      simp at hb
    · rintro - a' σ' T' ⟨rfl, rfl, -, hk⟩
      exact ⟨rfl, hv₁, hk⟩

end Alloc

end ThreeAddress
