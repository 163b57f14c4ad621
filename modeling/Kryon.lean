import Kryon.Lib.Transaction
import Kryon.Lib.Store
import Kryon.Lib.Runs
import Kryon.Lib.OneChange
import Kryon.Lib.Truncation
import Kryon.Core.Fixed
import Kryon.Core.Types
import Kryon.Core.Accounting
import Kryon.Risk.Margin
import Kryon.Risk.Funding
import Kryon.Storage
import Kryon.World
import Kryon.Deployed
import Kryon.OracleAdapter
import Kryon.Insurance
import Kryon.Vault
import Kryon.Engine
import Kryon.Gateway
import Kryon.Gateway.Effects
import Kryon.Gateway.Replay
import Kryon.Liquidation
import Kryon.Insurance.Effects
import Kryon.Insurance.Shares
import Kryon.Vault.Effects
import Kryon.Vault.Health
import Kryon.Vault.AssetIndex
import Kryon.Engine.Effects
import Kryon.Engine.OiPolicy
import Kryon.Engine.OpenInterest
import Kryon.Engine.Book
import Kryon.Engine.Worth
import Kryon.Gateway.MatchedBook
import Kryon.Gateway.Margin
import Kryon.Gateway.Conservation
import Kryon.Liquidation.BadDebt
import Kryon.Risk.Cross
import Kryon.Vault.Valuation
import Kryon.Accounts
import Kryon.Migration
import Kryon.PositionIds
import Kryon.Engine.Mirror
import Kryon.Lib.Batch
import Kryon.Engine.Import
import Kryon.Engine.Accrual
import Kryon.Lib.Text
import Kryon.Venue.SigningMessage
import Kryon.Gateway.Message
import Kryon.Lib.Program
import Kryon.Lib.Pool
import Kryon.Lib.Table
import Kryon.Venue.Matching
import Kryon.Venue.Tables
import Kryon.Venue.Matcher
import Kryon.Venue.Reconciler
import Kryon.Venue.Isolation
import Kryon.Venue.Jobs
import Kryon.Venue.Broadcast
import Kryon.Venue.Stuck
import Kryon.Venue.Cancels
import Kryon.Venue.Rollbacks
import Kryon.Venue.Chores
import Kryon.Venue.Shifts
import Kryon.Lib.SharePrice
import Kryon.Insurance.Custody
import Kryon.Insurance.Price
import Kryon.Governance
import Kryon.Governance.Timelock
import Kryon.Lib.TimeWeighted
import Kryon.Engine.Mark
import Kryon.Engine.Schedule
import Kryon.OracleAdapter.Snapshots
import Kryon.Venue.Intake
import Kryon.Venue.Settleable
import Kryon.Vault.Withdrawal
import Kryon.Vault.Deficit
import Kryon.Liquidation.Solvency
import Kryon.Risk.Identity
import Kryon.Liquidation.Deleveraging
import Kryon.Engine.Realized
import Kryon.Engine.Averaging
import Kryon.Vault.Neutrality
import Kryon.Liquidation.Exhaustion
import Kryon.Engine.Admissible
import Kryon.Liquidation.Reward
import Kryon.Liquidation.Depleted
import Kryon.Liquidation.Sizing
import Kryon.Liquidation.Ladder
import Kryon.Lib.Median
import Kryon.OracleAdapter.Quorum
import Kryon.Lib.Greedy
import Kryon.Venue.GreedyRun
import Kryon.Venue.MatchSafety
import Kryon.Venue.Priority
import Kryon.Venue.PersistFill
import Kryon.Venue.Undo
import Kryon.Venue.Placement
import Kryon.Admin
import Kryon.Protocol
import Kryon.Vault.Payments
import Kryon.Config
import Kryon.Nested
import Kryon.Vault.Backing
import Kryon.System
import Kryon.Governance.Authority
import Kryon.Vault.Paused
import Kryon.Engine.Stale
import Kryon.Consent
import Kryon.Exposure
import Kryon.Vault.Exit
import Kryon.Governance.Handover
import Kryon.Governance.Handover.Completion
