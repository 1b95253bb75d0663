import Suture.Audit.Tamper
import Suture.Cli.Bisect
import Suture.Cli.MergeAbort
import Suture.Dag.CommonAncestor
import Suture.Dag.PushList
import Suture.Driver.Cells
import Suture.Driver.Csv
import Suture.Driver.Docx
import Suture.Driver.Ical
import Suture.Driver.Kubernetes
import Suture.Driver.Markdown
import Suture.Driver.MarkdownLaws
import Suture.Driver.MarkdownText
import Suture.Driver.Otio
import Suture.Driver.Pointers
import Suture.Driver.Pptx
import Suture.Driver.Properties
import Suture.Driver.Sql
import Suture.Driver.Svg
import Suture.Driver.Terraform
import Suture.Driver.Xlsx
import Suture.Driver.Xml
import Suture.Engine.Batches
import Suture.Engine.ChooseSide
import Suture.Engine.Composing
import Suture.Engine.MergeSound
import Suture.Engine.Reread
import Suture.Engine.TextBytes
import Suture.Engine.TreeReplay
import Suture.Foundation.Directories
import Suture.Foundation.Numbered
import Suture.Foundation.Pairing
import Suture.Foundation.ThreeWay
import Suture.Hub.Commits
import Suture.Hub.History
import Suture.Hub.Limits
import Suture.Hub.Orgs
import Suture.Hub.Overwrite
import Suture.Hub.Shallow
import Suture.Patches.BranchOrder
import Suture.Raft.Acknowledge
import Suture.Raft.Joint
import Suture.Raft.NextIndex
import Suture.Raft.OneVote
import Suture.Raft.Reads
import Suture.Raft.Refused
import Suture.Raft.Transfer
import Suture.Repo.AddAll
import Suture.Repo.Blame
import Suture.Repo.ByteExact
import Suture.Repo.Collect
import Suture.Repo.Interactive
import Suture.Repo.Notes
import Suture.Repo.Preview
import Suture.Repo.Reopened
import Suture.Repo.Revert
import Suture.Repo.Sparse
import Suture.Repo.StashStack
import Suture.Repo.TodoRoundTrip
import Suture.Runtime.Cluster
import Suture.Runtime.Delivery
import Suture.Vfs.Sessions
import Suture.Vfs.Stable
import Suture.Wire.Ancestry
import Suture.Wire.Binding
import Suture.Wire.CodeSearch
import Suture.Wire.Content
import Suture.Wire.Deletion
import Suture.Wire.Endpoints
import Suture.Wire.Hashes
import Suture.Wire.Lfs
import Suture.Wire.Pages
import Suture.Wire.PatchSigning
import Suture.Wire.Pull
import Suture.Wire.Replication
import Suture.Wire.Restored
import Suture.Wire.Scopes
