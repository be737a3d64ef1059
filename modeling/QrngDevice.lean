import QrngDevice.Driver.Wakeup
import QrngDevice.Driver.WriteAppends
import QrngDevice.Driver.ReadAlone
import QrngDevice.Driver.ReadLog
import QrngDevice.Driver.ReadErrors
import QrngDevice.Driver.Signals
import QrngDevice.Driver.PollReports
import QrngDevice.Service.PollPromises
import QrngDevice.Service.Served
import QrngDevice.Service.Zeroes
import QrngDevice.Service.Twister
import QrngDevice.Testing.BenchmarkRuns
