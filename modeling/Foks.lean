import Foks.Team.Privilege
import Foks.Team.Custody
import Foks.Server.BearerToken
import Foks.Merkle.Completeness
import Foks.Merkle.OneHistory
import Foks.Merkle.Racing
import Foks.Client.RemovedMembers
import Foks.Client.Retry
import Foks.Client.Hostchain
import Foks.Client.Resume
import Foks.Client.NameLoad
import Foks.Server.HostchainTails
import Foks.Server.TeamIndex
import Foks.Client.TeamResume
import Foks.KvClient.OutboxRuns
import Foks.KvClient.Chunks
import Foks.KvStore.RefCounts
import Foks.KvStore.Names
import Foks.Realtime.Members
import Foks.Realtime.ChannelNames
import Foks.Realtime.Sync
import Foks.Server.InviteCodes
