import NekoStrategies.StrategyPositions

/-!
# Who can lower a vault's position

The three attributing strategies burn the position of whatever vault a
withdrawal names, whoever calls. A vault is therefore safe exactly against the
runs in which no withdrawal that could commit names it.
-/
namespace NekoStrategies.WithdrawAuthority
open SorobanHost PositionBook TransactionalRun StrategyPositions

section Law
variable {σ α : Type} (step : α → σ → Outcome σ) (positions : σ → Attribution Address)
  (start : σ → Prop) (sound : α → Prop) (authorises : α → Address → Prop)
  (withdrawalOf : α → Option (ℤ × Address))

/-- From every reachable state, a run in which a vault authorises nothing does
not lower its position. -/
def SilentVaultsKeep : Prop :=
  ∀ (w₀ : σ) (before acts : List α) (vault : Address), start w₀ →
    (∀ a ∈ before ++ acts, sound a) → (∀ a ∈ acts, ¬authorises a vault) →
    (positions (run step w₀ before)).amount vault ≤
      (positions (run step (run step w₀ before) acts)).amount vault

/-- A withdrawal naming the vault is harmless if it asks for nothing or the
vault has nothing. -/
def Harmless (vault : Address) (a : α) (w : σ) : Prop :=
  ∀ amount, withdrawalOf a = some (amount, vault) →
    amount ≤ 0 ∨ (positions w).amount vault = 0

/-- From every reachable state, harmless runs do not lower the vault's position,
and each other withdrawal that commits does. -/
def OnlyWithdrawalsLower (vault : Address) : Prop :=
  ∀ (w₀ : σ) (before : List α), start w₀ → (∀ a ∈ before, sound a) →
    let w := run step w₀ before
    (∀ acts, (∀ a ∈ acts, sound a) →
      Each step (Harmless positions withdrawalOf vault) w acts →
      (positions w).amount vault ≤ (positions (run step w acts)).amount vault) ∧
    ∀ a amount w', sound a → withdrawalOf a = some (amount, vault) → step a w = .ok w' →
      (positions w').amount vault < (positions w).amount vault

variable {step positions start sound withdrawalOf} {I : σ → Prop} {credited : α → Option Address}

theorem bookkeeping_lowers {vault : Address}
    (h : Bookkeeping step positions I sound credited (named withdrawalOf))
    (hstart : ∀ w, start w → I w ∧ positions w = .empty)
    (hcommits : ∀ a amount vault w w', withdrawalOf a = some (amount, vault) →
      step a w = .ok w' → 0 < amount ∧ (positions w).amount vault ≠ 0) :
    OnlyWithdrawalsLower step positions start sound withdrawalOf vault := by
  intro w₀ before hw hbefore w
  obtain ⟨hI₀, hempty⟩ := hstart w₀ hw
  have hnonneg₀ : (positions w₀).Nonneg := hempty ▸ Attribution.Nonneg.empty
  obtain ⟨hI, hnonneg⟩ := h.run_nonneg hI₀ hnonneg₀ hbefore
  constructor
  · intro acts hacts hharmless
    apply h.run_amount_le hI hnonneg
    rw [each_iff_forall_split] at hharmless ⊢
    rintro pre a post rfl
    refine ⟨hacts a (by simp), ?_⟩
    intro hnamed t ht
    obtain ⟨⟨amount, vault'⟩, hrequest, rfl⟩ := Option.map_eq_some_iff.mp hnamed
    obtain ⟨hpos, hheld⟩ := hcommits a amount vault' _ t hrequest ht
    rcases hharmless pre a post rfl amount hrequest with hle | hzero
    · exact hle.not_gt hpos
    · exact hheld hzero
  · intro a amount w' ha hrequest ht
    apply h.debit_lt ha hI hnonneg _ ht
    simp [named, hrequest]

end Law

section Contracts

theorem neko_commits (a : NekoContract.Action) (amount : ℤ) (vault : Address)
    (w w' : NekoContract.World) (ha : Neko.withdrawalOf a = some (amount, vault))
    (h : NekoContract.step a w = .ok w') :
    0 < amount ∧ (Neko.positions w).amount vault ≠ 0 := by
  rcases a with ⟨env, c⟩ | _ | _
  · cases c with
    | withdraw x v dest =>
        obtain ⟨rfl, rfl⟩ := Prod.mk.inj (Option.some.inj ha)
        simp only [NekoContract.step, NekoContract.invoke, bind_eq_ok, pure_eq_ok,
          Prod.exists] at h
        obtain ⟨k, u, hu, _⟩ := h
        obtain ⟨hpos, _, hheld, _⟩ := NekoContract.withdraw_ok hu
        exact ⟨hpos, hheld⟩
    | construct | asset | deposit | balance | harvest => cases ha
  · cases ha
  · cases ha

theorem soroswap_commits (a : SoroswapContract.Action) (amount : ℤ) (vault : Address)
    (w w' : SoroswapPool.World) (ha : Soroswap.withdrawalOf a = some (amount, vault))
    (h : SoroswapContract.step a w = .ok w') :
    0 < amount ∧ (Soroswap.positions w).amount vault ≠ 0 := by
  rcases a with ⟨env, c⟩ | _ | _
  · cases c with
    | withdraw x v dest =>
        obtain ⟨rfl, rfl⟩ := Prod.mk.inj (Option.some.inj ha)
        simp only [SoroswapContract.step, SoroswapContract.invoke, bind_eq_ok, pure_eq_ok,
          Prod.exists] at h
        obtain ⟨k, u, hu, _⟩ := h
        obtain ⟨hpos, hheld, _⟩ := SoroswapContract.withdraw_ok hu
        exact ⟨hpos, hheld⟩
    | construct | asset | deposit | balance | harvest => cases ha
  · cases ha
  · cases ha

theorem aquarius_commits (a : AquariusContract.Action) (amount : ℤ) (vault : Address)
    (w w' : AquariusPool.World) (ha : Aquarius.withdrawalOf a = some (amount, vault))
    (h : AquariusContract.step a w = .ok w') :
    0 < amount ∧ (Aquarius.positions w).amount vault ≠ 0 := by
  rcases a with ⟨env, c⟩ | _ | _
  · cases c with
    | withdraw x v dest =>
        obtain ⟨rfl, rfl⟩ := Prod.mk.inj (Option.some.inj ha)
        simp only [AquariusContract.step, AquariusContract.invoke, bind_eq_ok, pure_eq_ok,
          Prod.exists] at h
        obtain ⟨k, u, hu, _⟩ := h
        obtain ⟨hpos, hheld, _⟩ := AquariusCalls.withdraw_ok hu
        exact ⟨hpos, hheld⟩
    | construct | updateSlippage | sweep | asset | deposit | balance | harvest => cases ha
  · cases ha
  · cases ha

/-- In each contract a position falls only through a withdrawal that names its
vault, and through every one of them that commits. -/
theorem only_withdrawals_lower (vault : Address) :
    OnlyWithdrawalsLower NekoContract.step Neko.positions NekoContract.Deployed
        Neko.SoundAction Neko.withdrawalOf vault ∧
      OnlyWithdrawalsLower SoroswapContract.step Soroswap.positions
        (fun w => SoroswapContract.Deployed w ∧ Soroswap.Proper w) Soroswap.SoundAction
        Soroswap.withdrawalOf vault ∧
      OnlyWithdrawalsLower AquariusContract.step Aquarius.positions
        (fun w => AquariusContract.Deployed w ∧ Aquarius.Proper w) Aquarius.SoundAction
        Aquarius.withdrawalOf vault := by
  refine ⟨?_, ?_, ?_⟩
  · apply bookkeeping_lowers Neko.bookkeeping
    · intro w hw
      exact ⟨trivial, Neko.deployed_empty hw⟩
    · exact neko_commits
  · apply bookkeeping_lowers Soroswap.bookkeeping
    · intro w hw
      exact ⟨hw.2, Soroswap.deployed_empty hw.1⟩
    · exact soroswap_commits
  · apply bookkeeping_lowers Aquarius.bookkeeping
    · intro w hw
      exact ⟨hw.2, Aquarius.deployed_empty hw.1⟩
    · exact aquarius_commits

/-- The vault's deposit, and what another vault does in the meantime. -/
def nekoEntry : List NekoContract.Action :=
  [.transfer Neko.sampleAsset (.account 1) (.contract 0) 2000,
    .call (Neko.sampleEnv (.account 1)) (.deposit 2000 (.account 1))]

def nekoOther : List NekoContract.Action :=
  [.transfer Neko.sampleAsset (.account 2) (.contract 0) 3000,
    .call (Neko.sampleEnv (.account 2)) (.deposit 3000 (.account 2)),
    .call (Neko.sampleEnv (.account 2)) (.withdraw 500 (.account 2) (.account 2))]

def soroswapEntry : List SoroswapContract.Action :=
  [.transfer Soroswap.sampleAsset (.account 1) (.contract 0) 2000,
    .call (Soroswap.sampleEnv (.account 1)) (.deposit 2000 (.account 1))]

def soroswapOther : List SoroswapContract.Action :=
  [.transfer Soroswap.sampleAsset (.account 2) (.contract 0) 3000,
    .call (Soroswap.sampleEnv (.account 2)) (.deposit 3000 (.account 2)),
    .call (Soroswap.sampleEnv (.account 2)) (.withdraw 500 (.account 2) (.account 2))]

def aquariusEntry : List AquariusContract.Action :=
  [.transfer Aquarius.sampleAsset (.account 1) (.contract 0) 2000,
    .call (Aquarius.sampleEnv (.account 1)) (.deposit 2000 (.account 1))]

def aquariusOther : List AquariusContract.Action :=
  [.transfer Aquarius.sampleAsset (.account 2) (.contract 0) 3000,
    .call (Aquarius.sampleEnv (.account 2)) (.deposit 3000 (.account 2)),
    .call (Aquarius.sampleEnv (.account 2)) (.withdraw 500 (.account 2) (.account 2))]

/-- The other vault leaves the position alone, and the stranger lowers it. -/
def KeptAndLost {σ α : Type} (step : α → σ → Outcome σ) (positions : σ → Attribution Address)
    (w : σ) (others : List α) (stranger : α) : Prop :=
  (positions w).amount (.account 1) ≤ (positions (run step w others)).amount (.account 1) ∧
    ∃ w', step stranger w = .ok w' ∧
      (positions w').amount (.account 1) < (positions w).amount (.account 1)

theorem only_withdrawals_lower_sample :
    KeptAndLost NekoContract.step Neko.positions
      (run NekoContract.step Neko.sampleWorld nekoEntry) nekoOther
      (.call (Neko.sampleEnv (.account 9)) (.withdraw 2000 (.account 1) (.account 9))) ∧
    KeptAndLost SoroswapContract.step Soroswap.positions
      (run SoroswapContract.step Soroswap.sampleWorld soroswapEntry) soroswapOther
      (.call (Soroswap.sampleEnv (.account 9)) (.withdraw 2000 (.account 1) (.account 9))) ∧
    KeptAndLost AquariusContract.step Aquarius.positions
      (run AquariusContract.step Aquarius.sampleWorld aquariusEntry) aquariusOther
      (.call (Aquarius.sampleEnv (.account 9)) (.withdraw 2000 (.account 1) (.account 9))) := by
  refine ⟨?_, ?_, ?_⟩
  · have hentry : ∀ a ∈ nekoEntry, Neko.SoundAction a := by
      simp [nekoEntry, Neko.SoundAction, Neko.sampleEnv_sound]
    obtain ⟨hkeep, hlower⟩ := (only_withdrawals_lower (.account 1)).1 Neko.sampleWorld
      nekoEntry Neko.sampleWorld_deployed hentry
    obtain ⟨w', hcall⟩ : ∃ w', NekoContract.step (.call (Neko.sampleEnv (.account 9))
        (.withdraw 2000 (.account 1) (.account 9)))
        (run NekoContract.step Neko.sampleWorld nekoEntry) = .ok w' := ⟨_, rfl⟩
    refine ⟨hkeep nekoOther ?_ ?_, w', hcall, hlower _ 2000 w' ?_ rfl hcall⟩
    · simp [nekoOther, Neko.SoundAction, Neko.sampleEnv_sound]
    · exact each_of_forall (by simp [nekoOther, Harmless, Neko.withdrawalOf])
    · exact Neko.sampleEnv_sound _
  · have hentry : ∀ a ∈ soroswapEntry, Soroswap.SoundAction a := by
      simp [soroswapEntry, Soroswap.SoundAction, Soroswap.sampleEnv_sound]
    obtain ⟨hkeep, hlower⟩ := (only_withdrawals_lower (.account 1)).2.1 Soroswap.sampleWorld
      soroswapEntry ⟨Soroswap.sampleWorld_deployed, Soroswap.sampleWorld_proper⟩ hentry
    obtain ⟨w', hcall⟩ : ∃ w', SoroswapContract.step (.call (Soroswap.sampleEnv (.account 9))
        (.withdraw 2000 (.account 1) (.account 9)))
        (run SoroswapContract.step Soroswap.sampleWorld soroswapEntry) = .ok w' := ⟨_, rfl⟩
    refine ⟨hkeep soroswapOther ?_ ?_, w', hcall, hlower _ 2000 w' ?_ rfl hcall⟩
    · simp [soroswapOther, Soroswap.SoundAction, Soroswap.sampleEnv_sound]
    · exact each_of_forall (by simp [soroswapOther, Harmless, Soroswap.withdrawalOf])
    · exact Soroswap.sampleEnv_sound _
  · have hentry : ∀ a ∈ aquariusEntry, Aquarius.SoundAction a := by
      simp [aquariusEntry, Aquarius.SoundAction, Aquarius.sampleEnv_sound]
    obtain ⟨hkeep, hlower⟩ := (only_withdrawals_lower (.account 1)).2.2 Aquarius.sampleWorld
      aquariusEntry ⟨Aquarius.sampleWorld_deployed, Aquarius.sampleWorld_proper⟩ hentry
    obtain ⟨w', hcall⟩ : ∃ w', AquariusContract.step (.call (Aquarius.sampleEnv (.account 9))
        (.withdraw 2000 (.account 1) (.account 9)))
        (run AquariusContract.step Aquarius.sampleWorld aquariusEntry) = .ok w' := ⟨_, rfl⟩
    refine ⟨hkeep aquariusOther ?_ ?_, w', hcall, hlower _ 2000 w' ?_ rfl hcall⟩
    · simp [aquariusOther, Aquarius.SoundAction, Aquarius.sampleEnv_sound]
    · exact each_of_forall (by simp [aquariusOther, Harmless, Aquarius.withdrawalOf])
    · exact Aquarius.sampleEnv_sound _

/-- A vault deposits 2000, and another account withdraws all of it to itself. -/
theorem stranger_withdraws :
    ¬SilentVaultsKeep NekoContract.step Neko.positions NekoContract.Deployed
        Neko.SoundAction Neko.authorises ∧
      ¬SilentVaultsKeep SoroswapContract.step Soroswap.positions
        (fun w => SoroswapContract.Deployed w ∧ Soroswap.Proper w) Soroswap.SoundAction
        Soroswap.authorises ∧
      ¬SilentVaultsKeep AquariusContract.step Aquarius.positions
        (fun w => AquariusContract.Deployed w ∧ Aquarius.Proper w) Aquarius.SoundAction
        Aquarius.authorises := by
  refine ⟨?_, ?_, ?_⟩
  · intro h
    have hlost := h Neko.sampleWorld
      [.transfer Neko.sampleAsset (.account 1) (.contract 0) 2000,
        .call (Neko.sampleEnv (.account 1)) (.deposit 2000 (.account 1))]
      [.call (Neko.sampleEnv (.account 9)) (.withdraw 2000 (.account 1) (.account 9))]
      (.account 1) Neko.sampleWorld_deployed
      (by simp [Neko.SoundAction, Neko.sampleEnv_sound])
      (by simp [Neko.authorises, Neko.sampleEnv, Caller.Authorises])
    exact absurd hlost (by decide +kernel)
  · intro h
    have hlost := h Soroswap.sampleWorld
      [.transfer Soroswap.sampleAsset (.account 1) (.contract 0) 2000,
        .call (Soroswap.sampleEnv (.account 1)) (.deposit 2000 (.account 1))]
      [.call (Soroswap.sampleEnv (.account 9)) (.withdraw 2000 (.account 1) (.account 9))]
      (.account 1) ⟨Soroswap.sampleWorld_deployed, Soroswap.sampleWorld_proper⟩
      (by simp [Soroswap.SoundAction, Soroswap.sampleEnv_sound])
      (by simp [Soroswap.authorises, Soroswap.sampleEnv, Caller.Authorises])
    exact absurd hlost (by decide +kernel)
  · intro h
    have hlost := h Aquarius.sampleWorld
      [.transfer Aquarius.sampleAsset (.account 1) (.contract 0) 2000,
        .call (Aquarius.sampleEnv (.account 1)) (.deposit 2000 (.account 1))]
      [.call (Aquarius.sampleEnv (.account 9)) (.withdraw 2000 (.account 1) (.account 9))]
      (.account 1) ⟨Aquarius.sampleWorld_deployed, Aquarius.sampleWorld_proper⟩
      (by simp [Aquarius.SoundAction, Aquarius.sampleEnv_sound])
      (by simp [Aquarius.authorises, Aquarius.sampleEnv, Caller.Authorises])
    exact absurd hlost (by decide +kernel)

end Contracts

end NekoStrategies.WithdrawAuthority
