import NekoStrategies.BlendNoProfit
import NekoStrategies.BlendBankRun
import NekoStrategies.WithdrawAuthority
import NekoStrategies.SoroswapAuthorisation
import NekoStrategies.SoroswapBalances
import NekoStrategies.AquariusBalances
import NekoStrategies.TransientBalances
import NekoStrategies.DepositCredit
import NekoStrategies.AquariusRewards
import NekoStrategies.BlendBalances
import NekoStrategies.BlendYield
import NekoStrategies.BlendAuthority
import NekoStrategies.NekoEconomics
import NekoStrategies.AquariusSweep
import NekoStrategies.AquariusAdmin
import NekoStrategies.AquariusSlippage
import NekoStrategies.BurnFairness
import NekoStrategies.AquariusMinimums
import NekoStrategies.AquariusVectors
import NekoStrategies.SoroswapLiquidity
import NekoStrategies.AquariusLiquidity
import NekoStrategies.BlendFairness
import NekoStrategies.ReportedBalances
import NekoStrategies.BlendLedger
import NekoStrategies.BlendMinimum
import NekoStrategies.BlendAdmission
import NekoStrategies.NekoBankRun
import NekoStrategies.NekoInterleaving
import NekoStrategies.SoroswapExit
import NekoStrategies.AquariusExit
import NekoStrategies.StorageLifetimes
import NekoStrategies.WalletFlows
