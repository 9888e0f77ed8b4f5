import NekoStrategies.BlendSolvency

/-!
# The yield signal of the Blend strategy

A harvest reports the underlying behind one share, scaled by 10^12. The exact
value `bTokens * b_rate / shares` never falls while the rate does not, but the
signal floors the whole position to units of underlying first and scales
afterwards, so what the flooring hides is spread over the shares: the fewer
shares are left, the more a later signal can fall short of an earlier one.
-/
namespace NekoStrategies.BlendYield
open CheckedInteger RoundedDivision SorobanHost BlendReserves BlendContract BlendCalls
open BlendBooks BlendSolvency SharePool

section Price
variable {r : StrategyReserves} {price : ℤ}

theorem pricePerShare_open (hS : 0 < r.totalShares) (hB : 0 < r.totalBTokens)
    (hr : 0 < r.bRate) (h : pricePerShare r = .ok price) :
    price = floorDiv (floorDiv (r.totalBTokens * r.bRate) scalar12 * scalar12)
      r.totalShares := by
  unfold pricePerShare at h
  rw [if_pos hS] at h
  simp only [bind_eq_ok, pure_eq_ok] at h
  obtain ⟨u, hu, rfl⟩ := h
  have hvalue := sharesToUnderlying_open hS hB hu
  rw [mul_comm r.totalShares, floorDiv_self hS] at hvalue
  have hfit : i128.Holds (r.totalBTokens * r.bRate) := by
    rw [sharesToUnderlying, if_neg (by omega)] at hu
    simp only [StrategyReserves.sharesToBTokensDown, StrategyReserves.bTokensToUnderlyingDown,
      bind_eq_ok, okOr_eq_ok, fixedDivFloor_eq_some, fixedMulFloor_eq_some] at hu
    obtain ⟨b, ⟨_, _, _, rfl⟩, _, hfit, _⟩ := hu
    rwa [mul_comm r.totalShares, floorDiv_self hS] at hfit
  have hproduct : 0 ≤ r.totalBTokens * r.bRate := (mul_pos hB hr).le
  have hu0 : 0 ≤ u := hvalue ▸ floorDiv_nonneg hproduct scalar12_pos
  have huK : u * scalar12 ≤ r.totalBTokens * r.bRate := hvalue ▸ floorDiv_mul_le _ scalar12_pos
  have huK0 : 0 ≤ u * scalar12 := mul_nonneg hu0 scalar12_pos.le
  have hholds : i128.Holds (u * scalar12) := i128_holds_of_le huK0 huK hfit
  have hq : (u * scalar12).tdiv r.totalShares = floorDiv (u * scalar12) r.totalShares := by
    rw [floorDiv_eq_ediv hS, Int.tdiv_eq_ediv_of_nonneg huK0]
  have hqle : floorDiv (u * scalar12) r.totalShares ≤ u * scalar12 := by
    nlinarith [floorDiv_mul_le (u * scalar12) hS, floorDiv_nonneg huK0 hS]
  have hqholds : i128.Holds (floorDiv (u * scalar12) r.totalShares) :=
    i128_holds_of_le (floorDiv_nonneg huK0 hS) hqle hholds
  rw [Width.checkedMul, Width.checked_of_holds hholds, Option.bind_some, Width.checkedDiv,
    if_neg hS.ne', hq, Width.checked_of_holds hqholds, Option.getD_some, hvalue]

end Price

section Bounds
variable {S B r price : ℤ}

/-- A signal is no more than the exact value. -/
theorem signal_le (hS : 0 < S) :
    floorDiv (floorDiv (B * r) scalar12 * scalar12) S * S ≤ B * r :=
  (floorDiv_mul_le _ hS).trans (floorDiv_mul_le _ scalar12_pos)

/-- It falls short of a price below the exact value by less than one unit of
underlying, spread over the shares. -/
theorem le_signal (hS : 0 < S) (h : price * S ≤ B * r) :
    price ≤ floorDiv (floorDiv (B * r) scalar12 * scalar12) S + ceilDiv (scalar12 - 1) S := by
  have hfloor := lt_floorDiv_add_one_mul (B * r) scalar12_pos
  have hspread := le_ceilDiv_mul (scalar12 - 1) hS
  rw [← sub_le_iff_le_add, le_floorDiv_iff hS]
  linarith

end Bounds

/-- What a harvest reports, and the shares and the rate it reports it for. -/
structure Signal where
  price : ℤ
  totalShares : ℤ
  rate : ℤ
deriving DecidableEq, Repr

/-- The signal of a harvest made while shares exist, from the state it leaves. -/
def signalOf : Action → World → List Signal
  | .call env (.harvest _ _), w =>
      match w.events.getLast? with
      | some (.harvest _ _ _ price) =>
          if 0 < (getStrategyReserves w.storage).totalShares then
            [⟨price, (getStrategyReserves w.storage).totalShares, env.bRate⟩]
          else []
      | _ => []
  | _, _ => []

def signals : World → List Action → List Signal := TransactionalRun.outputs step signalOf

/-- The rates that the calls of a run find. -/
def rates (acts : List Action) : List ℤ :=
  acts.filterMap fun
    | .call env _ => some env.bRate
    | .others _ => none

/-- The price is below the exact value of a share at its rate. -/
def Below (x : Signal) (w : World) : Prop :=
  0 < (books w.storage).totalShares ∧ 0 ≤ x.rate ∧
    x.price * (books w.storage).totalShares ≤ (books w.storage).assets * x.rate

section Runs
variable {env : Env} {w w' : World} {a : Action} {x y : Signal} {acts : List Action}

theorem harvest_signal {sender : Address} {data : Option (List UInt8)}
    (hb : Backed 1000 (books w'.storage)) (hr : 0 < env.bRate)
    (h : BlendContract.harvest env w sender data = .ok w')
    (hx : x ∈ signalOf (.call env (.harvest sender data)) w') :
    0 < (books w'.storage).totalShares ∧ x.totalShares = (books w'.storage).totalShares ∧
      x.rate = env.bRate ∧
      x.price = floorDiv (floorDiv ((books w'.storage).assets * x.rate) scalar12 * scalar12)
        x.totalShares := by
  obtain ⟨_, _, config, r, u, tokens, claimed, price, minOut, _, hre, hprice, rfl⟩ := harvest_ok h
  have hr' : r = getStrategyReserveUpdated u.storage env.bRate := by
    rcases performReinvest_ok hre with ⟨rfl, rfl⟩ | ⟨_, _, _, _, _, _, rfl, _, hrec⟩
    · rfl
    · obtain ⟨_, _, rfl, rfl⟩ := harvest_recorded hrec
      rfl
  dsimp only [signalOf, World.emit] at hx
  rw [List.getLast?_concat] at hx
  dsimp only at hx
  split_ifs at hx with hS
  · obtain rfl := List.mem_singleton.mp hx
    have hB : 0 < (books u.storage).assets := hS.trans_le (hb.open_books hS).2
    subst hr'
    have hvalue := pricePerShare_open (r := getStrategyReserveUpdated u.storage env.bRate) hS hB
      hr hprice
    exact ⟨hS, rfl, rfl, hvalue⟩
  · cases hx

theorem Below.step (hb : Backed 1000 (books w.storage)) (hx : Below x w)
    (h : step a w = .ok w') : Below x w' := by
  obtain ⟨hS, hrate, hprice⟩ := hx
  have hS' : 0 < (books w'.storage).totalShares := by
    have := step_open hb hS h
    omega
  have hle : PriceLe (books w.storage) (books w'.storage) := by
    rcases step_move hb h with he | ⟨f, hm⟩
    · rw [he]
      exact PriceLe.refl _
    · exact hm.priceLe hS
  refine ⟨hS', hrate, le_of_mul_le_mul_right ?_ hS⟩
  have h1 := mul_le_mul_of_nonneg_right hprice hS'.le
  have h2 := mul_le_mul_of_nonneg_right hle hrate
  linarith

theorem signalOf_cases (a : Action) (w : World) :
    signalOf a w = [] ∨ ∃ env sender data x, a = .call env (.harvest sender data) ∧
      signalOf a w = [x] ∧ x.rate = env.bRate := by
  unfold signalOf
  split
  · split
    · split_ifs
      · exact .inr ⟨_, _, _, _, rfl, rfl, rfl⟩
      · exact .inl rfl
    · exact .inl rfl
  · exact .inl rfl

theorem signals_rates : ((signals w acts).map Signal.rate).Sublist (rates acts) := by
  induction acts generalizing w with
  | nil => exact List.Sublist.slnil
  | cons a acts ih =>
      have hcons : (rates acts).Sublist (rates (a :: acts)) := by
        simp only [rates, List.filterMap_cons]
        split
        · exact List.Sublist.refl _
        · exact List.sublist_cons_self _ _
      unfold signals TransactionalRun.outputs
      cases step a w with
      | error e => exact ih.trans hcons
      | ok t =>
          rcases signalOf_cases a t with hnone | ⟨env, sender, data, x, rfl, hone, hrate⟩
          · simp only [hnone, List.nil_append]
            exact ih.trans hcons
          · simp only [hone, List.cons_append, List.nil_append, List.map_cons, hrate]
            exact ih.cons_cons _

theorem signals_pairwise (hb : Backed 1000 (books w.storage))
    (hpos : ∀ r ∈ rates acts, 0 < r) :
    (signals w acts).Pairwise fun x y => x.rate ≤ y.rate →
      x.price ≤ y.price + ceilDiv (scalar12 - 1) y.totalShares := by
  refine TransactionalRun.outputs_pairwise (F := Below)
    (C := fun a _ => ∀ env c, a = .call env c → 0 < env.bRate)
    (I := fun w : World => Backed 1000 (books w.storage)) ?_ ?_ ?_ hb ?_
  · intro a u u' _ hu h
    exact ⟨step_backed a u u' hu h, fun x hx => hx.step hu h⟩
  · intro a u u' ha hu h
    have hu' := step_backed a u u' hu h
    rcases signalOf_cases a u' with hnone | ⟨env, sender, data, x, rfl, hone, _⟩
    · simp [hnone]
    · rw [hone]
      refine ⟨List.pairwise_singleton _ _, ?_⟩
      intro y hy
      obtain rfl := List.mem_singleton.mp hy
      have hmem : y ∈ signalOf (.call env (.harvest sender data)) u' := by simp [hone]
      obtain ⟨hS, hshares, hrate, hprice⟩ := harvest_signal hu' (ha env _ rfl) h hmem
      refine ⟨hS, hrate ▸ (ha env _ rfl).le, ?_⟩
      rw [hprice, hshares]
      exact signal_le hS
  · intro a u u' x ha hu h hx y hy
    have hu' := step_backed a u u' hu h
    rcases signalOf_cases a u' with hnone | ⟨env, sender, data, _, rfl, _, _⟩
    · rw [hnone] at hy
      cases hy
    · intro hrates
      obtain ⟨hS, hshares, hrate, hprice⟩ := harvest_signal hu' (ha env _ rfl) h hy
      obtain ⟨_, _, hbelow⟩ := hx.step hu h
      rw [hprice, hshares]
      refine le_signal hS (hbelow.trans (mul_le_mul_of_nonneg_left hrates ?_))
      exact hS.le.trans (hu'.open_books hS).2
  · apply TransactionalRun.each_of_forall
    rintro a ha _ env c rfl
    exact hpos _ (List.mem_filterMap.mpr ⟨_, ha, rfl⟩)

end Runs

/-- Over every run in which the rate never falls, each signal is at least every
earlier one less what one unit of underlying makes per share. -/
theorem signal_falls_by_rounding (w₀ : World) (acts : List Action) (hw : Deployed w₀)
    (hpos : ∀ r ∈ rates acts, 0 < r) (hmono : (rates acts).Pairwise (· ≤ ·)) :
    (signals w₀ acts).Pairwise fun x y =>
      x.price ≤ y.price + ceilDiv (scalar12 - 1) y.totalShares := by
  have hsignals := signals_pairwise (Deployed.backed hw) hpos
  have hrates : (signals w₀ acts).Pairwise fun x y => x.rate ≤ y.rate :=
    List.pairwise_map.mp (hmono.sublist signals_rates)
  exact hsignals.imp₂ (fun _ _ h hr => h hr) hrates

/-- One depositor, and a harvest before and after a withdrawal, all at rate 1.1. -/
def sampleHarvests : List Action :=
  [.call (sampleEnv (.account 1)) (.deposit 5500 (.account 1)),
    .call (sampleEnv sampleKeeper) (.harvest sampleKeeper none),
    .call (sampleEnv (.account 1)) (.withdraw 1098 (.account 1) (.account 3)),
    .call (sampleEnv sampleKeeper) (.harvest sampleKeeper none)]

theorem signal_falls_by_rounding_sample :
    (signals sampleWorld sampleHarvests).Pairwise fun x y =>
      x.price ≤ y.price + ceilDiv (scalar12 - 1) y.totalShares :=
  signal_falls_by_rounding sampleWorld sampleHarvests sampleWorld_deployed (by decide)
    (by decide)

/-- The withdrawal leaves 4401.1 of underlying on 4001 shares: at an unchanged
rate and an unchanged number of bTokens per share the second signal is lower. -/
theorem signal_falls :
    Deployed sampleWorld ∧ (rates sampleHarvests).Pairwise (· ≤ ·) ∧
      signals sampleWorld sampleHarvests =
        [⟨1100000000000, 5000, 1100000000000⟩, ⟨1099975006248, 4001, 1100000000000⟩] ∧
      ¬((signals sampleWorld sampleHarvests).map Signal.price).Pairwise (· ≤ ·) := by
  have hsignals : signals sampleWorld sampleHarvests =
      [⟨1100000000000, 5000, 1100000000000⟩, ⟨1099975006248, 4001, 1100000000000⟩] := by
    decide +kernel
  refine ⟨sampleWorld_deployed, by decide, hsignals, ?_⟩
  rw [hsignals]
  decide

end NekoStrategies.BlendYield
