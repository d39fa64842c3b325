import OwidRust.Lib.ByteOrder
import OwidRust.Lib.Append
import OwidRust.Error
import OwidRust.Text
import OwidRust.Time
import OwidRust.Io
import OwidRust.Crypto
import OwidRust.Owid
import OwidRust.Parse
import OwidRust.ParseSuffix
import OwidRust.Frame
import OwidRust.Dates
import OwidRust.Sizes
import OwidRust.Lib.Chunks
import OwidRust.Framed
import OwidRust.Waiting
import OwidRust.ParseSafety
import OwidRust.Diagnosis
import OwidRust.Lib.TwoRuns
import OwidRust.Disclosed
import OwidRust.FrameRun
import OwidRust.Creator
import OwidRust.Lib.Runs
import OwidRust.Lib.Buckets
import OwidRust.Lib.Periods
import OwidRust.Schedule
import OwidRust.Fetch.Cache
import OwidRust.Fetch.CacheInv
import OwidRust.Fetch.Statements
import OwidRust.Json
import OwidRust.JsonLanguage
import OwidRust.KeyAnswer
import OwidRust.Endpoints
import OwidRust.WrittenAnswer
import OwidRust.Fetch.Request
import OwidRust.Fetch.KeyUrl
import OwidRust.Fetch.StatedSpan
import OwidRust.Fetch.Verify
import OwidRust.Fetch.System
import OwidRust.Fetch.SystemInv
import OwidRust.Fetch.SingleFlight
import OwidRust.Fetch.Waiters
import OwidRust.Fetch.Verifying
import OwidRust.Fetch.NeighbourSearch
import OwidRust.Fetch.ClearCache
import OwidRust.Fetch.Provenance
import OwidRust.Fetch.Creator
import OwidRust.Fetch.Transparent
import OwidRust.Fetch.Rotation
import OwidRust.Fetch.Steady
import OwidRust.Fetch.Drift
import OwidRust.Lib.Progress
import OwidRust.Fetch.Settling
import OwidRust.Fetch.Ending
import OwidRust.Fetch.Alone
import OwidRust.Fetch.Serving
import OwidRust.Covered
import OwidRust.Fetch.Failures
import OwidRust.KeyExport
import OwidRust.Lib.Base64
import OwidRust.Base64Text
import OwidRust.JsonExchange
import OwidRust.Carried
import OwidRust.Fetch.Genuine
import OwidRust.Fetch.Recognised
