import NekoStrategies.AquariusRequests

/-!
# The amount vectors against the token list of the pool

The constructor searches the pool's token list for both tokens and takes any
list on which it finds them. The vectors passed to the pool always have two
entries, ordered by whether the deposit token was found first. They line up
with the list exactly if it has two entries and the tokens are different.
-/
namespace NekoStrategies.AquariusVectors
open CheckedInteger SorobanHost AquariusPool AquariusContract AquariusCalls AquariusRequests

/-- A vector has one amount for each token, those of the two tokens in their places. -/
structure Aligned (tokens : List Address) (config : StrategyConfig) (amounts : List ℤ)
    (ofDeposit ofPair : ℤ) : Prop where
  length_eq : amounts.length = tokens.length
  deposit_at : amounts[config.depositTokenIdx]? = some ofDeposit
  pair_at : amounts[config.pairTokenIdx]? = some ofPair

/-- All vectors that deposits and withdrawals pass to the pool are aligned. -/
structure VectorsAligned (tokens : List Address) (config : StrategyConfig) : Prop where
  idx_ne : config.depositTokenIdx ≠ config.pairTokenIdx
  desired : ∀ remaining toAdd, Aligned tokens config (desired config remaining toAdd)
    (asU128 remaining) (asU128 toAdd)
  minAmounts : ∀ minDepositOut minPairOut, Aligned tokens config
    (minAmounts config minDepositOut minPairOut) minDepositOut minPairOut

section Search
variable {depositToken pairToken : Address} {tokens : List Address} {i : ℕ} {found : ℕ × ℕ}

theorem scanTokens_same (h : found.1 = found.2) :
    (scanTokens depositToken depositToken tokens i found).1 =
      (scanTokens depositToken depositToken tokens i found).2 := by
  induction tokens generalizing i found with
  | nil => exact h
  | cons t tokens ih =>
      rw [scanTokens]
      apply ih
      rw [h]

/-- Two positions are different exactly if the tokens searched for are. -/
theorem resolveIndices_ne_iff
    (h : resolveIndices tokens depositToken pairToken = .ok found) :
    found.1 ≠ found.2 ↔ depositToken ≠ pairToken := by
  obtain ⟨hdeposit, hpair⟩ := resolveIndices_ok h
  constructor
  · rintro hne rfl
    simp only [resolveIndices, bind_eq_ok, ensure_eq_ok, pure_eq_ok, exists_const] at h
    obtain ⟨_, rfl⟩ := h
    exact hne (scanTokens_same rfl)
  · rintro hne heq
    rw [heq] at hdeposit
    exact hne (Option.some.inj (hdeposit.symm.trans hpair))

end Search

section Vectors
variable {w w' : World} {config : StrategyConfig} {asset : Address} {initArgs : List Val}
  {tokens : List Address} {x y : ℤ}

@[simp] theorem inPoolOrder_length : (inPoolOrder config x y).length = 2 := by
  unfold inPoolOrder
  split_ifs <;> rfl

theorem inPoolOrder_aligned (hlen : tokens.length = 2)
    (hdeposit : config.depositTokenIdx < 2) (hpair : config.pairTokenIdx < 2)
    (hne : config.depositTokenIdx ≠ config.pairTokenIdx) :
    Aligned tokens config (inPoolOrder config x y) x y := by
  refine ⟨by rw [inPoolOrder_length, hlen], ?_, ?_⟩
  · by_cases hfirst : config.depositTokenIdx = 0
    · simp [inPoolOrder, hfirst]
    · obtain hsecond : config.depositTokenIdx = 1 := by omega
      simp [inPoolOrder, hsecond]
  · by_cases hfirst : config.depositTokenIdx = 0
    · obtain hsecond : config.pairTokenIdx = 1 := by omega
      simp [inPoolOrder, hfirst, hsecond]
    · obtain hsecond : config.pairTokenIdx = 0 := by omega
      simp [inPoolOrder, hfirst, hsecond]

theorem initArg_address {args : List Val} {i : ℕ} {a : Address} :
    initArg args i Val.toAddress = .ok a ↔ args[i]? = some (.address a) := by
  simp only [initArg, orFault_eq_ok, Option.bind_eq_bind, Option.bind_eq_some_iff]
  constructor
  · rintro ⟨v, hv, ha⟩
    cases v with
    | address b =>
        obtain rfl := Option.some.inj ha
        exact hv
    | i128 | u32 | symbol => cases ha
  · intro hv
    exact ⟨_, hv, rfl⟩

theorem construct_indices (h : construct w asset initArgs = .ok w') :
    ∃ config pairToken, w'.storage.config = some config ∧ w'.pool = w.pool ∧
      initArgs[1]? = some (.address pairToken) ∧
      resolveIndices w.pool.tokens asset pairToken =
        .ok (config.depositTokenIdx, config.pairTokenIdx) := by
  simp only [construct, bind_eq_ok, pure_eq_ok, initArg_address, Prod.exists] at h
  obtain ⟨_, _, _, _, pairToken, hpair, _, _, _, _, _, _, i, j, hij, rfl⟩ := h
  exact ⟨_, pairToken, rfl, rfl, hpair, hij⟩

theorem aligned_iff {pairToken : Address}
    (h : resolveIndices tokens asset pairToken =
      .ok (config.depositTokenIdx, config.pairTokenIdx)) :
    VectorsAligned tokens config ↔ tokens.length = 2 ∧ asset ≠ pairToken := by
  have hne := resolveIndices_ne_iff h
  constructor
  · intro haligned
    refine ⟨?_, hne.mp haligned.idx_ne⟩
    have hlen := (haligned.minAmounts 0 0).length_eq
    rwa [minAmounts, inPoolOrder_length, eq_comm] at hlen
  · rintro ⟨hlen, htokens⟩
    obtain ⟨hdeposit, hpair⟩ := resolveIndices_ok h
    have hdepositLt := (List.getElem?_eq_some_iff.mp hdeposit).1
    have hpairLt := (List.getElem?_eq_some_iff.mp hpair).1
    rw [hlen] at hdepositLt hpairLt
    have hidx := hne.mpr htokens
    exact ⟨hidx, fun _ _ => inPoolOrder_aligned hlen hdepositLt hpairLt hidx,
      fun _ _ => inPoolOrder_aligned hlen hdepositLt hpairLt hidx⟩

end Vectors

/-- After a successful construction, in every state of every run, the vectors are
aligned exactly if the pool lists two tokens and the strategy is given two. -/
theorem vectors_aligned_iff (w₀ w : World) (asset : Address) (initArgs : List Val)
    (acts : List Action) (h : construct w₀ asset initArgs = .ok w) :
    ∃ config, (run w acts).storage.config = some config ∧ Requests config ∧
      (VectorsAligned (run w acts).pool.tokens config ↔
        w₀.pool.tokens.length = 2 ∧ initArgs[1]? ≠ some (.address asset)) := by
  obtain ⟨config, pairToken, hconfig, hpool, hpair, hindices⟩ := construct_indices h
  obtain ⟨slippage, hconfig', htokens⟩ := run_config acts hconfig
  refine ⟨_, hconfig', requests _, ?_⟩
  have hiff : VectorsAligned w₀.pool.tokens { config with maxSlippageBps := slippage } ↔
      w₀.pool.tokens.length = 2 ∧ asset ≠ pairToken := aligned_iff hindices
  rw [htokens, hpool, hiff, hpair]
  simp only [ne_eq, Option.some.injEq, Val.address.injEq, eq_comm]

theorem vectors_aligned_iff_sample : ∃ w config,
    construct (sampleBefore [.contract 1, .contract 2]) (.contract 1) sampleArgs = .ok w ∧
      w.storage.config = some config ∧ VectorsAligned w.pool.tokens config := by
  obtain ⟨config, hconfig, _, hiff⟩ :=
    vectors_aligned_iff (sampleBefore [.contract 1, .contract 2]) _ (.contract 1) sampleArgs [] rfl
  exact ⟨_, config, rfl, hconfig, hiff.mpr ⟨rfl, by decide⟩⟩

/-- Whatever the constructor accepts, the vectors are aligned. -/
def AlwaysAligned : Prop :=
  ∀ w₀ w asset initArgs config, construct w₀ asset initArgs = .ok w →
    w.storage.config = some config → VectorsAligned w.pool.tokens config

/-- A pool of three tokens is accepted, for which two amounts are too few. -/
theorem third_token_accepted : ¬AlwaysAligned := by
  intro haligned
  have hvectors := haligned (sampleBefore [.contract 7, .contract 1, .contract 2]) _
    (.contract 1) sampleArgs _ rfl rfl
  have hlen := (hvectors.minAmounts 0 0).length_eq
  rw [minAmounts, inPoolOrder_length] at hlen
  exact absurd hlen (by decide)

end NekoStrategies.AquariusVectors
