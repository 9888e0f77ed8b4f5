import NekoStrategies.AquariusBalances
import NekoStrategies.LiquidityMarket
import Mathlib.Data.List.Forall2

/-!
# Aquarius calls as moves of the pool

As at Soroswap, a deposit is a swap and a joining, a withdrawal a leaving and a
swap. Here the strategy keeps what the pool refunds, unsigned amounts are cast,
and the slippage can change in between: none of it lets vaults that trade alone
take more of the deposit token than they bring and hold.
-/
namespace NekoStrategies.AquariusLiquidity
open CheckedInteger SorobanHost AmmPosition PositionBook TransactionalRun EventLog LiquidityPool
open LiquidityMarket
open AquariusPool AquariusContract AquariusCalls AquariusBalances
open StrategyPositions StrategyPositions.Aquarius

/-- The pool, seen from the deposit token. -/
def liquidity (config : StrategyConfig) (p : Pool) : LiquidityPool :=
  ⟨p.reserve config.depositTokenIdx, p.reserve config.pairTokenIdx, p.totalShares⟩

/-- A pool of two tokens, both in stock. -/
structure Stocked (config : StrategyConfig) (p : Pool) : Prop where
  listed : Listed p config
  two : p.reserves.length = 2
  liquid : (liquidity config p).Open

/-- The pool keeps its product through swaps, uses no more than is desired, mints
at most the proportional shares and pays at most the proportional part of each
reserve. -/
structure FairPool (env : Env) : Prop where
  swap : ∀ p i j x out, 0 ≤ x → 0 < p.reserve i → 0 < p.reserve j →
    env.swapOut p i j x = some out → i128.Holds out ∧
      p.reserve i * p.reserve j ≤ (p.reserve i + x) * (p.reserve j - out)
  uses : ∀ p desired used, (∀ r ∈ p.reserves, 0 < r) → desired.length = p.reserves.length →
    (∀ d ∈ desired, 0 ≤ d) → env.depositUses p desired = some used →
    (∀ u ∈ used, 0 ≤ u) ∧ List.Forall₂ (· ≤ ·) used desired
  mints : ∀ p used n, (∀ r ∈ p.reserves, 0 < r) → 0 < p.totalShares →
    used.length = p.reserves.length → (∀ u ∈ used, 0 ≤ u) → env.sharesMinted p used = some n →
    0 ≤ n ∧ List.Forall₂ (fun u r => n * r ≤ u * p.totalShares) used p.reserves
  pays : ∀ p n amounts, 0 < p.totalShares → 0 ≤ n → env.withdrawPays p n = some amounts →
    (∀ a ∈ amounts, i128.Holds a) ∧
      List.Forall₂ (fun a r => a * p.totalShares ≤ n * r) amounts p.reserves

section Vectors
variable {auths : List AuthEntry} {self pool : Address} {tokens : List Address} {xs ys : List ℤ}
  {l l' : Ledger} {config : StrategyConfig} {p : Pool} {i : ℕ}

theorem forall₂_getD {R : ℤ → ℤ → Prop} (h : List.Forall₂ R xs ys) (hi : i < ys.length) :
    R (xs[i]?.getD 0) (ys[i]?.getD 0) := by
  have hi' : i < xs.length := h.length_eq ▸ hi
  rw [List.getElem?_eq_getElem hi, List.getElem?_eq_getElem hi']
  exact h.get hi' hi

theorem getD_nonneg (h : ∀ x ∈ xs, 0 ≤ x) : 0 ≤ xs[i]?.getD 0 := by
  cases hi : xs[i]? with
  | none => exact le_rfl
  | some x => exact h x (List.mem_of_getElem? hi)

theorem getD_holds (h : ∀ x ∈ xs, i128.Holds x) : i128.Holds (xs[i]?.getD 0) := by
  cases hi : xs[i]? with
  | none => exact i128_holds_zero
  | some x => exact h x (List.mem_of_getElem? hi)

theorem zipWith_getD {f : ℤ → ℤ → ℤ} (hlen : xs.length = ys.length) (hi : i < xs.length) :
    (List.zipWith f xs ys)[i]?.getD 0 = f (xs[i]?.getD 0) (ys[i]?.getD 0) := by
  have hi' : i < ys.length := hlen ▸ hi
  simp [List.getElem?_zipWith, List.getElem?_eq_getElem hi, List.getElem?_eq_getElem hi']

/-- What is pulled is no negative amount. -/
theorem pullAll_nonneg (hlen : xs.length = tokens.length)
    (h : pullAll auths self pool tokens xs l = .ok l') : ∀ x ∈ xs, 0 ≤ asI128 x := by
  induction tokens generalizing xs l with
  | nil => simp [List.length_eq_zero_iff.mp hlen]
  | cons token tokens ih =>
      cases xs with
      | nil => simp
      | cons x xs =>
          simp only [pullAll, bind_eq_ok, Ledger.pull_eq_ok] at h
          obtain ⟨m, ⟨_, hm⟩, h⟩ := h
          intro y hy
          rcases List.mem_cons.mp hy with rfl | hy
          · exact (Ledger.transfer_eq_ok.mp hm).1
          · exact ih (by simpa using hlen) h y hy

theorem Stocked.lt_length (hs : Stocked config p) :
    config.depositTokenIdx < p.reserves.length ∧ config.pairTokenIdx < p.reserves.length := by
  have htwo := hs.two
  rcases hs.listed with ⟨hd, hp, _⟩ | ⟨hd, hp, _⟩ <;> omega

theorem Stocked.reserves_pos (hs : Stocked config p) : ∀ r ∈ p.reserves, 0 < r := by
  obtain ⟨x, y, hxy⟩ := List.length_eq_two.mp hs.two
  have hd := hs.liquid.a_pos
  have hp := hs.liquid.b_pos
  simp only [liquidity, Pool.reserve, hxy] at hd hp
  rcases hs.listed with ⟨h0, h1, _⟩ | ⟨h1, h0, _⟩
  · simp_all
  · simp_all

/-- The two amounts of a vector in pool order, by token. -/
theorem inPoolOrder_get {x y : ℤ} (hl : Listed p config) :
    (inPoolOrder config x y)[config.depositTokenIdx]?.getD 0 = x ∧
      (inPoolOrder config x y)[config.pairTokenIdx]?.getD 0 = y := by
  rcases hl with ⟨hd, hp, _⟩ | ⟨hd, hp, _⟩ <;> simp [inPoolOrder, hd, hp]

theorem inPoolOrder_mem {x y : ℤ} : x ∈ inPoolOrder config x y ∧ y ∈ inPoolOrder config x y := by
  unfold inPoolOrder
  split_ifs <;> simp

theorem inPoolOrder_nonneg {x y : ℤ} (hx : 0 ≤ x) (hy : 0 ≤ y) :
    ∀ d ∈ inPoolOrder config x y, 0 ≤ d := by
  unfold inPoolOrder
  split_ifs <;> simp [hx, hy]

theorem inPoolOrder_two {x y : ℤ} : (inPoolOrder config x y).length = 2 := by
  unfold inPoolOrder
  split_ifs <;> rfl

end Vectors

section Moves
variable {env : Env} {w w' : World} {auths : List AuthEntry} {config : StrategyConfig}
  {k x y : ℤ} {mins amounts : List ℤ}

/-- A swap of the deposit token for the pair token. -/
theorem swapIn_move (hf : FairPool env) (hs : Stocked config w.pool) (hx : 0 ≤ x)
    (h : swap env w auths config config.depositTokenIdx config.pairTokenIdx x y = .ok (k, w')) :
    0 ≤ k ∧ i128.Holds k ∧ Stocked config w'.pool ∧
      LiquidityPool.Move (liquidity config w.pool) (liquidity config w'.pool) ∧
      liquidity config w'.pool = ⟨(liquidity config w.pool).a + x,
        (liquidity config w.pool).b - k, w.pool.totalShares⟩ := by
  obtain ⟨_, _, _, _, _, _, hout, _, _, ht', rfl⟩ := swap_ok h
  have ha := hs.liquid.a_pos
  obtain ⟨hholds, hproduct⟩ := hf.swap _ _ _ _ _ hx ha hs.liquid.b_pos hout
  have hpool : liquidity config { w.pool with
      reserves := (w.pool.reserves.modify config.depositTokenIdx (· + x)).modify
        config.pairTokenIdx (· - k) } = ⟨(liquidity config w.pool).a + x,
          (liquidity config w.pool).b + -k, w.pool.totalShares⟩ := by
    obtain ⟨hd, hp⟩ := reserve_modify (x := x) (y := k) hs.listed.get.2.2 ha hs.liquid.b_pos
    simp only [liquidity, Pool.reserve, hd, hp, ← sub_eq_add_neg]
  have hmove : LiquidityPool.Move (liquidity config w.pool) (liquidity config { w.pool with
      reserves := (w.pool.reserves.modify config.depositTokenIdx (· + x)).modify
        config.pairTokenIdx (· - k) }) := by
    rw [hpool]
    refine LiquidityPool.Move.swap (liquidity config w.pool) x (-k) (by omega) ?_
    rw [← sub_eq_add_neg]
    exact hproduct
  refine ⟨(Ledger.transfer_eq_ok.mp ht').1, hholds, ⟨hs.listed.congr rfl, ?_, ?_⟩, hmove, ?_⟩
  · simpa using hs.two
  · exact hmove.open hs.liquid
  · rw [hpool, ← sub_eq_add_neg]

/-- A swap of the pair token for the deposit token. -/
theorem swapOut_move (hf : FairPool env) (hs : Stocked config w.pool) (hx : 0 ≤ x)
    (h : swap env w auths config config.pairTokenIdx config.depositTokenIdx x y = .ok (k, w')) :
    i128.Holds k ∧ Stocked config w'.pool ∧
      LiquidityPool.Move (liquidity config w.pool) (liquidity config w'.pool) ∧
      liquidity config w'.pool = ⟨(liquidity config w.pool).a - k,
        (liquidity config w.pool).b + x, w.pool.totalShares⟩ := by
  obtain ⟨_, _, _, _, _, _, hout, _, _, _, rfl⟩ := swap_ok h
  have hb := hs.liquid.b_pos
  obtain ⟨hholds, hproduct⟩ := hf.swap _ _ _ _ _ hx hb hs.liquid.a_pos hout
  have hpool : liquidity config { w.pool with
      reserves := (w.pool.reserves.modify config.pairTokenIdx (· + x)).modify
        config.depositTokenIdx (· - k) } = ⟨(liquidity config w.pool).a + -k,
          (liquidity config w.pool).b + x, w.pool.totalShares⟩ := by
    obtain ⟨hp, hd⟩ := reserve_modify (x := x) (y := k) hs.listed.get.2.2.symm hb hs.liquid.a_pos
    simp only [liquidity, Pool.reserve, hd, hp, ← sub_eq_add_neg]
  have hrest : 0 < (liquidity config w.pool).a + -k := by
    have hpos : 0 < ((liquidity config w.pool).b + x) * ((liquidity config w.pool).a - k) :=
      (mul_pos hb hs.liquid.a_pos).trans_le hproduct
    have := pos_of_mul_pos_right hpos (by omega)
    omega
  have hmove : LiquidityPool.Move (liquidity config w.pool) (liquidity config { w.pool with
      reserves := (w.pool.reserves.modify config.pairTokenIdx (· + x)).modify
        config.depositTokenIdx (· - k) }) := by
    rw [hpool]
    refine LiquidityPool.Move.swap (liquidity config w.pool) (-k) x hrest ?_
    calc (liquidity config w.pool).a * (liquidity config w.pool).b
        = (liquidity config w.pool).b * (liquidity config w.pool).a := mul_comm _ _
      _ ≤ ((liquidity config w.pool).b + x) * ((liquidity config w.pool).a - k) := hproduct
      _ = ((liquidity config w.pool).a + -k) * ((liquidity config w.pool).b + x) := by ring
  refine ⟨hholds, ⟨hs.listed.congr rfl, ?_, ?_⟩, hmove, ?_⟩
  · simpa using hs.two
  · exact hmove.open hs.liquid
  · rw [hpool, ← sub_eq_add_neg]

/-- Of two desired amounts the pool takes at most these, and mints for what it takes. -/
theorem poolDeposit_move (hf : FairPool env) (hs : Stocked config w.pool) {a b : ℤ}
    (hnonneg : ∀ d ∈ inPoolOrder config a b, 0 ≤ d)
    (h : poolDeposit env w auths config (inPoolOrder config a b) x = .ok w') :
    Stocked config w'.pool ∧
      LiquidityPool.Move (liquidity config w.pool) (liquidity config w'.pool) ∧
      w.pool.totalShares ≤ w'.pool.totalShares ∧
      (liquidity config w'.pool).a ≤ (liquidity config w.pool).a + a ∧
      (liquidity config w'.pool).b ≤ (liquidity config w.pool).b + b := by
  obtain ⟨_, used, n, _, _, _, hused, _, hn, _, rfl⟩ := poolDeposit_ok h
  have hlen : (inPoolOrder config a b).length = w.pool.reserves.length := by
    rw [hs.two, inPoolOrder_two]
  obtain ⟨husedNonneg, huses⟩ := hf.uses _ _ _ hs.reserves_pos hlen hnonneg hused
  have husedLen : used.length = w.pool.reserves.length := huses.length_eq.trans hlen
  obtain ⟨hn0, hmints⟩ := hf.mints _ _ _ hs.reserves_pos hs.liquid.shares_pos husedLen
    husedNonneg hn
  obtain ⟨hdi, hpi⟩ := hs.lt_length
  obtain ⟨hda, hpb⟩ := inPoolOrder_get (x := a) (y := b) hs.listed
  have hdLe := forall₂_getD huses (hlen ▸ hdi)
  have hpLe := forall₂_getD huses (hlen ▸ hpi)
  have hpool : liquidity config { w.pool with
      reserves := List.zipWith (· + ·) w.pool.reserves used
      totalShares := w.pool.totalShares + n } =
      ⟨(liquidity config w.pool).a + used[config.depositTokenIdx]?.getD 0,
        (liquidity config w.pool).b + used[config.pairTokenIdx]?.getD 0,
        w.pool.totalShares + n⟩ := by
    simp only [liquidity, Pool.reserve, zipWith_getD husedLen.symm hdi,
      zipWith_getD husedLen.symm hpi]
  have hmove : LiquidityPool.Move (liquidity config w.pool) (liquidity config { w.pool with
      reserves := List.zipWith (· + ·) w.pool.reserves used
      totalShares := w.pool.totalShares + n }) := by
    rw [hpool]
    exact LiquidityPool.Move.join (liquidity config w.pool) _ _ n (getD_nonneg husedNonneg)
      (getD_nonneg husedNonneg) hn0 (forall₂_getD hmints hdi)
      (forall₂_getD hmints hpi)
  refine ⟨⟨hs.listed.congr rfl, ?_, hmove.open hs.liquid⟩, hmove, ?_, ?_, ?_⟩
  · simp [husedLen, hs.two]
  · dsimp only
    omega
  · rw [hda] at hdLe
    rw [hpool]
    dsimp only
    omega
  · rw [hpb] at hpLe
    rw [hpool]
    dsimp only
    omega

/-- Shares leave with at most their part of both reserves. -/
theorem poolWithdraw_move (hf : FairPool env) (hs : Stocked config w.pool) (hx : 0 ≤ x)
    (hlt : x < w.pool.totalShares)
    (h : poolWithdraw env w auths config x mins = .ok (amounts, w')) :
    (∀ a ∈ amounts, i128.Holds a) ∧ Stocked config w'.pool ∧
      LiquidityPool.Move (liquidity config w.pool) (liquidity config w'.pool) ∧
      liquidity config w'.pool =
        ⟨(liquidity config w.pool).a - amounts[config.depositTokenIdx]?.getD 0,
          (liquidity config w.pool).b - amounts[config.pairTokenIdx]?.getD 0,
          w.pool.totalShares - x⟩ := by
  obtain ⟨_, hamounts, _, _, _, rfl⟩ := poolWithdraw_ok h
  obtain ⟨hholds, hpays⟩ := hf.pays _ _ _ hs.liquid.shares_pos hx hamounts
  obtain ⟨hdi, hpi⟩ := hs.lt_length
  have hlen : w.pool.reserves.length = amounts.length := hpays.length_eq.symm
  have hpool : liquidity config { w.pool with
      reserves := List.zipWith (· - ·) w.pool.reserves amounts
      totalShares := w.pool.totalShares - x } =
      ⟨(liquidity config w.pool).a - amounts[config.depositTokenIdx]?.getD 0,
        (liquidity config w.pool).b - amounts[config.pairTokenIdx]?.getD 0,
        w.pool.totalShares - x⟩ := by
    simp only [liquidity, Pool.reserve, zipWith_getD hlen hdi,
      zipWith_getD hlen hpi]
  have hmove : LiquidityPool.Move (liquidity config w.pool) (liquidity config { w.pool with
      reserves := List.zipWith (· - ·) w.pool.reserves amounts
      totalShares := w.pool.totalShares - x }) := by
    rw [hpool]
    exact LiquidityPool.Move.leave (liquidity config w.pool) _ _ x hlt
      (forall₂_getD hpays hdi)
      (forall₂_getD hpays hpi)
  refine ⟨hholds, ⟨hs.listed.congr rfl, ?_, hmove.open hs.liquid⟩, hmove, hpool⟩
  simp [← hlen, hs.two]

end Moves

section Calls
variable {env : Env} {w w' : World} {auths : List AuthEntry} {config : StrategyConfig}
  {amount k x : ℤ} {dest : Address} {xs mins amounts : List ℤ}

/-- The strategy receives the shares that are minted. -/
theorem poolDeposit_shares (hnot : w.pool.shareId ∉ w.pool.tokens)
    (h : poolDeposit env w auths config xs x = .ok w') :
    w'.self = w.self ∧ w'.pool.totalShares - w.pool.totalShares =
      w'.tokens w.pool.shareId w.self - w.tokens w.pool.shareId w.self := by
  obtain ⟨_, used, shares, tokens, tokens', hpull, _, hpay, _, _, rfl⟩ := poolDeposit_ok h
  refine ⟨rfl, ?_⟩
  dsimp only
  rw [Ledger.add_apply, payAll_other (.inl hnot) hpay, pullAll_other hnot hpull]
  simp

/-- A burn that is pre-authorised in its signed reading is a token amount. -/
theorem poolWithdraw_holds
    (h : poolWithdraw env w [.burn config.shareToken w.self x] config (asU128 x) mins =
      .ok (amounts, w')) : asI128 (asU128 x) = x := by
  simp only [poolWithdraw, bind_eq_ok, ensure_eq_ok, List.mem_singleton, AuthEntry.burn.injEq] at h
  obtain ⟨_, ⟨_, _, hx⟩, _⟩ := h
  exact hx

/-- No more of the pair token is added than the swap paid. -/
theorem plannedPair_range (config : StrategyConfig) (u : World) (rem : ℤ) (hx : i128.Holds x) :
    plannedPair config u rem x ≤ x ∧ i128.Holds (plannedPair config u rem x) := by
  unfold plannedPair pairToAdd
  refine ⟨min_le_right _ _, ?_⟩
  rcases min_choice (if 0 < asI128 (u.pool.reserve config.depositTokenIdx) then
      i128.mulDivOrZero rem (asI128 (u.pool.reserve config.pairTokenIdx))
        (asI128 (u.pool.reserve config.depositTokenIdx)) else x) x with hmin | hmin
  · rw [hmin]
    split_ifs
    · exact Width.mulDivOrZero_holds (by decide)
    · exact hx
  · rwa [hmin]

theorem deposit_moved (hf : FairPool env) (hc : ProperConfig w config)
    (hs : Stocked config w.pool) (hamount : 0 < amount) (hholds : i128.Holds amount)
    (h : AquariusPool.deposit env w amount config = .ok (k, w')) :
    0 ≤ k ∧ Stocked config w'.pool ∧
      Moved (liquidity config w.pool) (liquidity config w'.pool) k amount := by
  obtain ⟨received, u, minShares, hswap, hdep, hk⟩ := poolStep_ok h
  obtain ⟨hhalf, hrem, hhalfHolds, hremHolds⟩ := halves_holds hamount hholds
  obtain ⟨_, hself, _, htokens, hid⟩ := swapHalf_frame hswap
  obtain ⟨_, _, out, _, _, hpays, rfl⟩ := swapHalf_ok hswap
  rw [asU128_of_holds hhalf hhalfHolds] at hpays
  obtain ⟨_, houtHolds, hsu, hfirst, hpool⟩ := swapIn_move hf hs hhalf hpays
  rw [asI128_of_holds houtHolds] at hdep
  obtain ⟨hle, hplanHolds⟩ := plannedPair_range config u (amount - amount.tdiv 2) houtHolds
  set plan := plannedPair config u (amount - amount.tdiv 2) out with hplan
  have hplanNonneg : 0 ≤ plan := by
    obtain ⟨hlen, _, _, _, _, hpull, _⟩ := poolDeposit_ok hdep
    rw [← asI128_asU128 hplanHolds]
    exact pullAll_nonneg hlen hpull _ inPoolOrder_mem.2
  rw [asU128_of_holds hrem.le hremHolds, asU128_of_holds hplanNonneg hplanHolds] at hdep
  have hdesired : ∀ d ∈ inPoolOrder config (amount - amount.tdiv 2) plan, 0 ≤ d :=
    inPoolOrder_nonneg hrem.le hplanNonneg
  obtain ⟨hs', hsecond, hgrown, ha, hb⟩ := poolDeposit_move hf hsu hdesired hdep
  obtain ⟨hself', hshares⟩ := poolDeposit_shares (hc.congr hself htokens hid).share_not_mem hdep
  have hminted : k = w'.pool.totalShares - u.pool.totalShares := by
    rw [hk, hself', hc.share_eq, ← hid, hshares]
  have hsame : u.pool.totalShares = w.pool.totalShares := congrArg LiquidityPool.shares hpool
  rw [hpool] at ha hb
  dsimp only at ha hb
  refine ⟨by omega, hs', (Relation.ReflTransGen.single hfirst).tail hsecond, ?_, ?_, ?_⟩
  · simp only [liquidity]
    omega
  · omega
  · omega

theorem withdraw_moved (hf : FairPool env) (hc : ProperConfig w config)
    (hs : Stocked config w.pool) (hx : 0 ≤ x) (hlt : x < w.pool.totalShares)
    (h : AquariusPool.withdraw env w x dest config = .ok (k, w')) :
    Stocked config w'.pool ∧
      Moved (liquidity config w.pool) (liquidity config w'.pool) (-x) (-k) := by
  obtain ⟨_, _, amounts, u, u', hremove, hback, hpay⟩ := poolExit_ok h
  have hxHolds : i128.Holds x := poolWithdraw_holds hremove ▸ asI128_holds _
  obtain ⟨_, _, _, hpair, _⟩ := poolWithdraw_balances hs.listed hc inPoolOrder_two hremove
  rw [asU128_of_holds hx hxHolds] at hremove
  obtain ⟨hholds, hsu, hfirst, hpool⟩ := poolWithdraw_move hf hs hx hlt hremove
  rw [asI128_of_holds (getD_holds hholds), asI128_of_holds (getD_holds hholds)] at hback
  have hsame : w'.pool = u'.pool := by
    rcases payOut_ok hpay with ⟨_, rfl⟩ | ⟨_, _, _, rfl⟩ <;> rfl
  have hsupply : u.pool.totalShares = w.pool.totalShares - x :=
    congrArg LiquidityPool.shares hpool
  rw [hsame]
  rcases swapBack_ok hback with ⟨hnone, rfl, rfl⟩ | ⟨_, minOut, out, hswap, rfl⟩
  · refine ⟨hsu, .single hfirst, ?_, ?_, ?_⟩
    · rw [hpool]
      rfl
    · rw [hpool]
      dsimp only
      omega
    · rw [hpool]
      dsimp only
      omega
  · rw [asU128_of_holds hpair (getD_holds hholds)] at hswap
    obtain ⟨houtHolds, hsu', hsecond, hback'⟩ := swapOut_move hf hsu hpair hswap
    refine ⟨hsu', (Relation.ReflTransGen.single hfirst).tail hsecond, ?_, ?_, ?_⟩
    · rw [hback']
      exact hsupply
    · rw [hback', hpool, asI128_of_holds houtHolds]
      dsimp only
      omega
    · rw [hback', hpool]
      dsimp only
      omega

end Calls

def view (config : StrategyConfig) (w : World) : View Address :=
  ⟨liquidity config w.pool, positions w, w.events⟩

/-- The strategy is set up on a pool of its two tokens, at any slippage. -/
structure SetUp (config : StrategyConfig) (w : World) : Prop where
  configured : ∃ slippage, w.storage.config = some { config with maxSlippageBps := slippage }
  proper : ProperConfig w config
  stocked : Stocked config w.pool

/-- The pool is fair to everybody, and others leave the strategy its shares. -/
def Fair (config : StrategyConfig) : Action → World → Prop
  | .call env (.deposit amount _), _ => i128.Holds amount ∧ FairPool env
  | .call env _, _ => FairPool env
  | .transfer _ _ _ _, _ => True
  | .others _ reserves totalShares, w => reserves.length = 2 ∧
      Moves (liquidity config w.pool) (liquidity config { w.pool with reserves, totalShares }) ∧
      (positions w).total < totalShares

section Steps
variable {env : Env} {w w' : World} {config : StrategyConfig} {amount k slippage : ℤ}
  {vault dest : Address} {a : Action} {p : Pool}

/-- Nothing about the pool depends on the slippage. -/
theorem Stocked.at_slippage (hs : Stocked config p) :
    Stocked { config with maxSlippageBps := slippage } p := ⟨hs.listed, hs.two, hs.liquid⟩

theorem Stocked.of_slippage (hs : Stocked { config with maxSlippageBps := slippage } p) :
    Stocked config p := ⟨hs.listed, hs.two, hs.liquid⟩

theorem proper_at_slippage (hc : ProperConfig w config) :
    ProperConfig w { config with maxSlippageBps := slippage } :=
  ⟨hc.share_eq, hc.share_not_mem, hc.tokens_nodup, hc.deposit_listed, hc.pool_ne⟩

theorem deposit_effect (hw : SetUp config w) (hf : FairPool env) (hholds : i128.Holds amount)
    (h : AquariusContract.deposit env w amount vault = .ok (k, w')) :
    Stocked config w'.pool ∧ Effect (some vault) none (view config w) (view config w') := by
  obtain ⟨hpos, c, minted, v, hc, hdep, rfl⟩ := deposit_ok h
  obtain ⟨slippage, hconfig⟩ := hw.configured
  obtain rfl := Option.some.inj (hc.symm.trans hconfig)
  obtain ⟨hnonneg, hs, hmoved⟩ := deposit_moved hf (proper_at_slippage hw.proper)
    hw.stocked.at_slippage hpos hholds hdep
  refine ⟨hs.of_slippage, .enter vault minted [.deposit strategyName amount vault] rfl hnonneg rfl
    ?_ ?_ rfl⟩
  · simp [drawn]
  · rw [totalBrought_singleton]
    exact hmoved

theorem withdraw_effect (hw : SetUp config w) (hh : Healthy (view config w)) (hf : FairPool env)
    (h : AquariusContract.withdraw env w amount vault dest = .ok (k, w')) :
    Stocked config w'.pool ∧ Effect none (some vault) (view config w) (view config w') := by
  obtain ⟨hpos, _, c, totalValue, burnt, paid, v, hc, _, _, hburn, _, hwd, rfl⟩ := withdraw_ok h
  obtain ⟨slippage, hconfig⟩ := hw.configured
  obtain rfl := Option.some.inj (hc.symm.trans hconfig)
  obtain ⟨hnonneg, hle⟩ := proportionalBurn_le (hh.nonneg vault) hpos hburn
  have hlt : burnt < w.pool.totalShares :=
    (hle.trans hh.nonneg.amount_le_total).trans_lt hh.locked
  obtain ⟨hs, hmoved⟩ := withdraw_moved hf (proper_at_slippage hw.proper) hw.stocked.at_slippage
    hnonneg hlt hwd
  refine ⟨hs.of_slippage, .leave vault burnt [.withdraw strategyName paid vault] rfl hnonneg hle
    rfl ?_ ?_ rfl⟩
  · simp [brought]
  · rw [totalDrawn_singleton]
    exact hmoved

/-- A reward claim is all that a harvest reports. -/
theorem harvest_events {sender : Address} {data : Option (List UInt8)}
    (h : AquariusContract.harvest env w sender data = .ok w') :
    ∃ aqua price, w'.events = w.events ++ [.harvest strategyName aqua sender price] := by
  obtain ⟨_, aqua, u, price, _, hclaim, _, rfl⟩ := harvest_ok h
  have hlog : u.events = w.events := by
    obtain ⟨_, _, _, ⟨_, rfl⟩ | ⟨_, _, _, rfl⟩⟩ := claim_ok hclaim <;> rfl
  exact ⟨aqua, price, by rw [World.emit, hlog]⟩

theorem SetUp.step (hw : SetUp config w) (hs : Stocked config w'.pool) (h : step a w = .ok w') :
    SetUp config w' := by
  obtain ⟨slippage, hconfig⟩ := hw.configured
  obtain ⟨slippage', hconfig', hself, htokens, hid, _⟩ := step_config hconfig h
  exact ⟨⟨slippage', hconfig'⟩, hw.proper.congr hself htokens hid, hs⟩

/-- A committed step is a vault's entry or exit, or leaves the positions alone. -/
theorem market : Market step (view config) (SetUp config) (Fair config) (named depositOf)
    (named withdrawalOf) := by
  intro a w w' ha hw hh h
  have hunmoved : ∀ es, w'.pool = w.pool → positions w' = positions w →
      named depositOf a = none → named withdrawalOf a = none → w'.events = w.events ++ es →
      totalBrought es = 0 → totalDrawn es = 0 → SetUp config w' ∧
        Effect (named depositOf a) (named withdrawalOf a) (view config w) (view config w') := by
    intro es hsame hbook hd hwd hlog hbrought hdrawn
    have hpool : (view config w').pool = (view config w).pool := by rw [view, view, hsame]
    refine ⟨hw.step (by rw [hsame]; exact hw.stocked) h,
      .others es hd hwd hlog hbrought hdrawn ?_ hbook ?_⟩
    · rw [hpool]
    · rw [hpool]
      exact hh.locked
  rcases a with ⟨env, c⟩ | ⟨token, sender, receiver, amount⟩ | ⟨tokens, reserves, totalShares⟩
  · obtain ⟨slippage, hconfig⟩ := hw.configured
    cases c with
    | construct asset initArgs =>
        rw [(construct_ok h).1] at hconfig
        cases hconfig
    | updateSlippage admin newSlippageBps =>
        obtain ⟨_, _, _, _, _, hw'⟩ := updateSlippage_ok h
        exact hunmoved [] (by rw [hw']) (by rw [hw']; rfl) rfl rfl (by rw [hw']; simp) rfl rfl
    | sweep admin token dest amount =>
        obtain ⟨_, _, _, _, _, _, hw'⟩ := sweep_ok h
        exact hunmoved [] (by rw [hw']) (by rw [hw']; rfl) rfl rfl (by rw [hw']; simp) rfl rfl
    | deposit amount vault =>
        obtain ⟨k, hv⟩ := forget_eq_ok.mp h
        obtain ⟨hs, heffect⟩ := deposit_effect hw ha.2 ha.1 hv
        exact ⟨hw.step hs h, heffect⟩
    | withdraw amount vault dest =>
        obtain ⟨k, hv⟩ := forget_eq_ok.mp h
        obtain ⟨hs, heffect⟩ := withdraw_effect hw hh ha hv
        exact ⟨hw.step hs h, heffect⟩
    | harvest sender data =>
        have hcall : AquariusContract.harvest env w sender data = .ok w' := h
        obtain ⟨hstorage, hpool, _⟩ := harvest_frame hcall
        obtain ⟨aqua, price, hlog⟩ := harvest_events hcall
        exact hunmoved [.harvest strategyName aqua sender price] hpool
          (by rw [positions, positions, hstorage]) rfl rfl hlog (by simp [brought])
          (by simp [drawn])
    | asset | balance vault =>
        obtain ⟨_, rfl⟩ := readOnly_eq_ok.mp h
        exact hunmoved [] rfl rfl rfl rfl (by simp) rfl rfl
  · obtain ⟨_, tokens, _, rfl⟩ := guarded_eq_ok.mp h
    exact hunmoved [] rfl rfl rfl rfl (by simp) rfl rfl
  · obtain rfl := Except.ok.inj h
    obtain ⟨htwo, hmoves, hshares⟩ := ha
    refine ⟨hw.step ⟨hw.stocked.listed.congr rfl, htwo, (hmoves.deepen hw.stocked.liquid).1⟩ h,
      .others [] rfl rfl (by simp [view]) rfl rfl hmoves rfl hshares⟩

/-- Calls of a vault of `K` and token transfers go together with trading alone. -/
theorem alone_call {c : Call} {K : Address → Prop}
    (hc : (∃ amount vault, c = .deposit amount vault ∧ K vault) ∨
      ∃ amount vault dest, c = .withdraw amount vault dest ∧ K vault) :
    Alone step (view config) (named depositOf) (named withdrawalOf) K (.call env c) w := by
  rcases hc with ⟨amount, vault, rfl, hK⟩ | ⟨amount, vault, dest, rfl, hK⟩
  · refine ⟨?_, fun he => by cases he⟩
    rintro i (hi | hi)
    · cases hi
      exact hK
    · cases hi
  · refine ⟨?_, fun _ hl => by cases hl⟩
    rintro i (hi | hi)
    · cases hi
    · cases hi
      exact hK

theorem alone_transfer {token sender receiver : Address} {K : Address → Prop} :
    Alone step (view config) (named depositOf) (named withdrawalOf) K
      (.transfer token sender receiver amount) w := by
  refine ⟨?_, ?_⟩
  · rintro i (hi | hi) <;> cases hi
  · intro _ _ t ht
    obtain ⟨_, _, _, rfl⟩ := guarded_eq_ok.mp ht
    rfl

end Steps

/-- In every run of the strategy among fair traders, whatever the slippage and the
sweeps, the depth of the pool never falls, and the product of the reserve parts
behind a vault's shares never falls while no withdrawal of that vault commits. -/
theorem depth_survives (w : World) (config : StrategyConfig) (acts : List Action)
    (hw : SetUp config w) (hh : Healthy (view config w))
    (hacts : Each step (Fair config) w acts) :
    (liquidity config w.pool).depth ≤ (liquidity config (run w acts).pool).depth ∧
    ∀ vault, Each step (Spares step (named withdrawalOf) vault) w acts →
      (liquidity config w.pool).behind (getShares w.storage vault) ≤
        (liquidity config (run w acts).pool).behind (getShares (run w acts).storage vault) :=
  ⟨market.run_depth hw hh hacts, fun _ hspared => market.run_behind hw hh hacts hspared⟩

/-- Vaults that trade alone withdraw no more than they deposit and than the other
shares leave of the reserves, although the strategy pays refunds to itself; if no
shares are theirs at the start, no more than they deposit. -/
theorem withdrawn_within_deposited (K : Address → Prop) [DecidablePred K] (w : World)
    (config : StrategyConfig) (before acts : List Action) (hw : SetUp config w)
    (hh : Healthy (view config w)) (hbefore : Each step (Fair config) w before)
    (hacts : Each step (fun a u => Fair config a u ∧
      Alone step (view config) (named depositOf) (named withdrawalOf) K a u)
      (run w before) acts) :
    ∃ es, (run w (before ++ acts)).events = (run w before).events ++ es ∧
      (totalDrawn es + takeableBy K (view config (run w (before ++ acts))) : ℚ) ≤
        totalBrought es + takeableBy K (view config (run w before)) ∧
      ((positions (run w before)).sumOver K = 0 → totalDrawn es ≤ totalBrought es) := by
  obtain ⟨hw', hh'⟩ := market.run_healthy hw hh hbefore
  rw [show run w (before ++ acts) = run (run w before) acts from run_append]
  exact market.run_takes hw' hh' hacts

/-- The constant product pool of two tokens, its shares rounded down both ways. -/
def fairEnv (signer : Address) : Env :=
  { sampleEnv signer with
    depositUses p desired := match desired, p.reserves with
      | [x, y], [r, s] => some [(ConstantProduct.optimalAmounts x y r s).1,
          (ConstantProduct.optimalAmounts x y r s).2]
      | _, _ => none
    sharesMinted p used := match used, p.reserves with
      | [x, y], [r, s] => u128.checked (min (x * p.totalShares / r) (y * p.totalShares / s))
      | _, _ => none }

theorem fairEnv_fair (signer : Address) : FairPool (fairEnv signer) where
  swap p i j x out hx hi hj h := by
    obtain ⟨hholds, rfl⟩ := Width.checked_eq_some.mp h
    exact ⟨hholds, ConstantProduct.amountOut_product hx hi hj⟩
  uses p desired used hpos hlen hnonneg h := by
    simp only [fairEnv] at h
    split at h
    · rename_i x y r s hreserves
      obtain rfl := Option.some.inj h
      simp only [hreserves, List.mem_cons, List.not_mem_nil, or_false, forall_eq_or_imp,
        forall_eq] at hpos hnonneg
      obtain ⟨hx, hy⟩ := ConstantProduct.optimalAmounts_le (a := x) (b := y) hpos.1 hpos.2
      have hamounts := ConstantProduct.optimalAmounts_nonneg hnonneg.1 hnonneg.2 hpos.1 hpos.2
      simpa [hx, hy] using hamounts
    · cases h
  mints p used n hpos hshares hlen hnonneg h := by
    simp only [fairEnv] at h
    split at h
    · rename_i x y r s hreserves
      obtain ⟨hholds, rfl⟩ := Width.checked_eq_some.mp h
      simp only [hreserves, List.mem_cons, List.not_mem_nil, or_false, forall_eq_or_imp,
        forall_eq] at hpos
      refine ⟨hholds.1, ?_⟩
      rw [hreserves, List.forall₂_cons, List.forall₂_cons]
      refine ⟨?_, ?_, .nil⟩
      · exact (mul_le_mul_of_nonneg_right (min_le_left _ _) hpos.1.le).trans
          (Int.ediv_mul_le _ hpos.1.ne')
      · exact (mul_le_mul_of_nonneg_right (min_le_right _ _) hpos.2.le).trans
          (Int.ediv_mul_le _ hpos.2.ne')
    · cases h
  pays p n amounts hshares hn h := by
    simp only [fairEnv, sampleEnv] at h
    split_ifs at h with hall
    obtain rfl := Option.some.inj h
    refine ⟨hall, ?_⟩
    rw [List.forall₂_map_left_iff, List.forall₂_same]
    intro r _
    rw [mul_comm n r]
    exact Int.ediv_mul_le _ hshares.ne'

theorem sampleWorld_setUp : SetUp sampleConfig sampleWorld :=
  ⟨⟨100, rfl⟩, sampleConfig_proper, .inl ⟨rfl, rfl, rfl⟩, rfl, ⟨by decide, by decide, by decide⟩⟩

theorem sampleWorld_healthy : Healthy (view sampleConfig sampleWorld) :=
  ⟨⟨by decide, by decide, by decide⟩, Attribution.Nonneg.empty, by decide⟩

/-- Two vaults deposit and one of them withdraws. -/
def sampleCalls : List Action :=
  [.transfer sampleAsset (.account 7) (.contract 0) 1000,
    .call (fairEnv (.account 7)) (.deposit 1000 (.account 7)),
    .transfer sampleAsset (.account 8) (.contract 0) 600,
    .call (fairEnv (.account 8)) (.deposit 600 (.account 8)),
    .call (fairEnv (.account 7)) (.withdraw 400 (.account 7) (.account 7))]

def sampleVaults (vault : Address) : Prop := vault = .account 7 ∨ vault = .account 8

instance : DecidablePred sampleVaults := fun _ => inferInstanceAs (Decidable (_ ∨ _))

theorem sampleCalls_fair : Each step (Fair sampleConfig) sampleWorld sampleCalls :=
  ⟨trivial, ⟨by decide, fairEnv_fair _⟩, trivial, ⟨by decide, fairEnv_fair _⟩, fairEnv_fair _,
    trivial⟩

theorem withdrawn_within_deposited_sample : ∃ es, (run sampleWorld sampleCalls).events = es ∧
    es.length = 3 ∧ totalDrawn es ≤ totalBrought es := by
  have halone : Each step (Alone step (view sampleConfig) (named depositOf) (named withdrawalOf)
      sampleVaults) sampleWorld sampleCalls :=
    ⟨alone_transfer, alone_call (.inl ⟨_, _, rfl, .inl rfl⟩), alone_transfer,
      alone_call (.inl ⟨_, _, rfl, .inr rfl⟩), alone_call (.inr ⟨_, _, _, rfl, .inl rfl⟩), trivial⟩
  obtain ⟨es, hlog, _, hnone⟩ := withdrawn_within_deposited sampleVaults sampleWorld sampleConfig []
    sampleCalls sampleWorld_setUp sampleWorld_healthy trivial
    (each_and.mpr ⟨sampleCalls_fair, halone⟩)
  obtain rfl : (run sampleWorld sampleCalls).events = es := hlog
  exact ⟨_, rfl, rfl, hnone rfl⟩

theorem depth_survives_sample :
    (liquidity sampleConfig sampleWorld.pool).depth ≤
      (liquidity sampleConfig (run sampleWorld sampleCalls).pool).depth :=
  (depth_survives sampleWorld sampleConfig sampleCalls sampleWorld_setUp sampleWorld_healthy
    sampleCalls_fair).1

end NekoStrategies.AquariusLiquidity
