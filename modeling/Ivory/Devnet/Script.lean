import Ivory.Devnet

/-!
# An interpreter of scripts

The interpreter of `Ivory.Devnet` accepts no module, so no contract ever runs in
it.  This one accepts scripts: a zero byte, followed by instructions.  A byte
other than zero costs one unit of fuel; the byte 255 emits a log and any other
writes itself to slot zero.  A zero byte traps.

* `script_run`: **a script that ends consumed one unit of fuel for each byte**, and ends the same
  way on any fuel that suffices.
-/

namespace Ivory.Devnet

/-- The instructions of a script, on some fuel. -/
def script : List UInt8 → UInt64 → HostProg (Except String (Int32 × UInt64))
  | [], fuel => .ret (.ok (0, fuel))
  | b :: code, fuel =>
    if b = 0 then .ret (.error "unreachable")
    else if fuel = 0 then .ret (.error "all fuel consumed")
    else if b = 255 then .emitLog 255 (script code (fuel - 1))
    else .storageSet 0 b.toUInt64.toInt64 (script code (fuel - 1))

/-- The interpreter of scripts. -/
@[reducible] def scripts : Wasmi where
  Module := List UInt8
  Inst := List UInt8
  parse code := if code.head? = some 0 then .ok code.tail else .error "invalid"
  start code fuel := .ret (.ok (code, fuel))
  callExport _ := some .unit
  call := script

/-- A run of a script; starting it consumes nothing. -/
theorem run_scripts (code : List UInt8) (s : StateDB) (address : Address) (fuel : UInt64)
    (input : List UInt8) : @WasmVm.run _ scripts code s address fuel input
      = if code.head? = some 0 then
          match (script code.tail fuel).run ⟨s, address, [], input⟩ with
          | (.error e, host) => (.error (.trap e), host.state)
          | (.ok (_, fuel), host) => (.ok ⟨none, host.logs, fuel⟩, host.state)
        else (.error (.invalidModule "invalid"), s) := by
  by_cases hc : code.head? = some 0
  · have hparse : @Wasmi.parse scripts code = .ok code.tail := if_pos hc
    rw [if_pos hc]
    unfold WasmVm.run
    rw [hparse]
    rfl
  · have hparse : @Wasmi.parse scripts code = .error "invalid" := if_neg hc
    rw [if_neg hc]
    unfold WasmVm.run
    rw [hparse]

theorem script_cons {b : UInt8} {fuel : UInt64} (hb : b ≠ 0) (hf : fuel ≠ 0) (code : List UInt8)
    (host : Host) : (script (b :: code) fuel).run host
      = (script code (fuel - 1)).run
        (if b = 255 then host.emitLog 255 else host.storageSet 0 b.toUInt64.toInt64) := by
  rw [script, if_neg hb, if_neg hf]
  by_cases hlog : b = 255
  · rw [if_pos hlog, if_pos hlog]
    rfl
  · rw [if_neg hlog, if_neg hlog]
    rfl

/-- **A script that ends consumed one unit of fuel for each byte**, and ends the same way on any
fuel that suffices. -/
theorem script_run : ∀ (code : List UInt8) (fuel : UInt64) (host : Host) {value : Int32}
    {left : UInt64}, ((script code fuel).run host).1 = .ok (value, left) →
      left.toNat + code.length = fuel.toNat
      ∧ ∀ fuel' : UInt64, code.length ≤ fuel'.toNat →
        ∃ left' : UInt64, left'.toNat + code.length = fuel'.toNat
          ∧ (script code fuel').run host
            = (.ok (value, left'), ((script code fuel).run host).2) := by
  intro code
  induction code with
  | nil =>
    intro fuel host value left h
    cases h
    exact ⟨rfl, fun fuel' _ => ⟨fuel', rfl, rfl⟩⟩
  | cons b code ih =>
    intro fuel host value left h
    have hb : b ≠ 0 := by
      intro hb
      rw [script, if_pos hb] at h
      cases h
    have hf : fuel ≠ 0 := by
      intro hf
      rw [script, if_neg hb, if_pos hf] at h
      cases h
    rw [script_cons hb hf] at h ⊢
    obtain ⟨hlen, hall⟩ := ih (fuel - 1) _ h
    -- one unit less, and there was one
    have hsub : ∀ f : UInt64, f ≠ 0 → (f - 1).toNat + 1 = f.toNat := by
      intro f hne
      have h0 := UInt64.toNat_ne_zero hne
      have hone : (1 : UInt64) ≤ f := UInt64.le_iff_toNat_le.mpr (Nat.one_le_iff_ne_zero.mpr h0)
      rw [UInt64.toNat_sub_of_le _ _ hone]
      exact Nat.succ_pred h0
    have hfuel := hsub fuel hf
    refine ⟨by rw [List.length_cons]; omega, fun fuel' hle => ?_⟩
    rw [List.length_cons] at hle
    have hf' : fuel' ≠ 0 := by
      rintro rfl
      simp at hle
    have hfuel' := hsub fuel' hf'
    obtain ⟨left', hl, hrun⟩ := hall (fuel' - 1) (by omega)
    refine ⟨left', by rw [List.length_cons]; omega, ?_⟩
    rw [script_cons hb hf', hrun]

end Ivory.Devnet
