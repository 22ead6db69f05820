import Homeserver.Main
import Homeserver.Proofs.Event.Consistent
import Homeserver.Proofs.Peer.InStep
import Homeserver.Proofs.Peer.Invite
import Homeserver.Proofs.Peer.Knock
import Homeserver.Proofs.Peer.Race
import Homeserver.Proofs.Peer.Redelivery
import Homeserver.Proofs.Peer.Rejoin
import Homeserver.Proofs.Peer.Seen
import Homeserver.Proofs.Peer.SelfContained
import Homeserver.Proofs.Peer.Unexpected
import Homeserver.Proofs.Room.Acceptance
import Homeserver.Proofs.Room.Backfill
import Homeserver.Proofs.Room.Delivery
import Homeserver.Proofs.Room.Depth
import Homeserver.Proofs.Room.Drafting
import Homeserver.Proofs.Room.Founding
import Homeserver.Proofs.Room.OnTop
import Homeserver.Proofs.Room.Timeline
import Homeserver.Proofs.Room.Tips
import Homeserver.Proofs.Sync.Retry
import Homeserver.Sync.Waiter
import Homeserver.Proofs.Json.Numbers
import Homeserver.Proofs.Json.Path
import Homeserver.Proofs.Room.Authorising
import Homeserver.Proofs.Sync.Check
import Homeserver.Proofs.Sync.Waiter
