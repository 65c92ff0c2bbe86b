import EdgeObserver.Contract.References
import EdgeObserver.Intake.Slots
import EdgeObserver.Sink.Deliveries
import EdgeObserver.Sink.Lines
import EdgeObserver.Extension.Once
import EdgeObserver.Process.Monotone
import EdgeObserver.Process.Legacy
import EdgeObserver.Process.Visible
import EdgeObserver.Capture.Whole
import EdgeObserver.Capture.Located
import EdgeObserver.Config.Coverage
import EdgeObserver.ContentCoding.Delivered
import EdgeObserver.ContentCoding.Frames
import EdgeObserver.ContentCoding.Growth
import EdgeObserver.Json.Language
import EdgeObserver.Stream.Wrapping
import EdgeObserver.Processing.Parameters
import EdgeObserver.Processing.Settled
import EdgeObserver.Processing.Withheld
import EdgeObserver.Processing.Router
import EdgeObserver.Observer.Reload
