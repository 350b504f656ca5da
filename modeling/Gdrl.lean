import Gdrl.PyJson
import Gdrl.GoJson
import Gdrl.Limiter
import Gdrl.PolicyWriter
import Gdrl.Survival
import Gdrl.Join
import Gdrl.Cap
import Gdrl.Slots
import Gdrl.UnderAllow
import Gdrl.Convergence
import Gdrl.Ticks
import Gdrl.Features
import Gdrl.Throttle
import Gdrl.Noisy
import Gdrl.Override
import Gdrl.Expiry
import Gdrl.Replay
import Gdrl.Service
import Gdrl.OverrideCache
import Gdrl.Inputs
import Gdrl.Window
import Gdrl.Scan
import Gdrl.Outage
import Gdrl.Lookups
import Gdrl.Cancellation
import Gdrl.Margin
import Gdrl.Hysteresis
import Gdrl.Coercion
import Gdrl.RoundTrip
import Gdrl.Hints
import Gdrl.Chunks
import Gdrl.Sums
import Gdrl.Buffer
import Gdrl.Admin
import Gdrl.Anomaly
import Gdrl.Predictor
import Gdrl.Forecasts
import Gdrl.Fallback
import Gdrl.Spikes
import Gdrl.Wiring
import Gdrl.GCounter
import Gdrl.Remaining
import Gdrl.Users
import Gdrl.Promise
import Gdrl.Lanes
import Gdrl.Transport
import Gdrl.Isolation
import Gdrl.Metrics
import Gdrl.Overrides
import Gdrl.GatewayStub
import Gdrl.Trail
import Gdrl.Stream
import Gdrl.Binding
import Gdrl.Responses
import Gdrl.Separation
import Gdrl.Polling
import Gdrl.Runner
import Gdrl.Inspection
import Gdrl.Recovery
import Gdrl.AgentLoop
