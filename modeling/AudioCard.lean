import AudioCard.Lib.Mailbox
import AudioCard.RingQueue
import AudioCard.Streams
import AudioCard.MicBounds
import AudioCard.Speaker
import AudioCard.MicHandover
import AudioCard.Frames
import AudioCard.Sessions
import AudioCard.Loopback
import AudioCard.MainLoop
import AudioCard.BusyFlag
import AudioCard.Ownership
import AudioCard.LateCall
import AudioCard.Cuts
import AudioCard.Jitter
import AudioCard.Reopen
import AudioCard.Boot
import AudioCard.Feedback
import AudioCard.Atomicity
import AudioCard.RingTraffic
import AudioCard.Accesses
import AudioCard.Progress
import AudioCard.Lib.Transit
import AudioCard.Throughput
import AudioCard.Independence
import AudioCard.Program
import AudioCard.Provenance
import AudioCard.EndToEnd
import AudioCard.FreshSession
import AudioCard.Lib.Stock
import AudioCard.Pace
import AudioCard.Realign

