import Dynodoc.Agent.Paging
import Dynodoc.Agent.Position
import Dynodoc.Agent.Refs
import Dynodoc.Authority.Follow
import Dynodoc.Checkpoint.ContentRead
import Dynodoc.Horizon.Accounting
import Dynodoc.Horizon.Binding
import Dynodoc.Horizon.Chain
import Dynodoc.Integrity.Invariants
import Dynodoc.Log.Roots
import Dynodoc.Merge.Dependencies
import Dynodoc.Merge.Depths
import Dynodoc.Merge.Replay
import Dynodoc.Merge.ValidTree
import Dynodoc.Policy.Rules
import Dynodoc.Repository.Ancestors
import Dynodoc.Repository.ComparePaging
import Dynodoc.Repository.Recovery
import Dynodoc.RichText.Exchange
import Dynodoc.Transparency.ConsistencyProof
import Dynodoc.Transparency.Quorum
import Dynodoc.Transparency.TileRuns
