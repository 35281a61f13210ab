import GzipHeaderCodec.Wire
import GzipHeaderCodec.Encode
import GzipHeaderCodec.Runs
import GzipHeaderCodec.Groups
import GzipHeaderCodec.Parse
import GzipHeaderCodec.Grammar
import GzipHeaderCodec.Accept
import GzipHeaderCodec.RoundTrip
import GzipHeaderCodec.Decode
import GzipHeaderCodec.Feed
import GzipHeaderCodec.Termination
import GzipHeaderCodec.Scratch
import GzipHeaderCodec.Stream
import GzipHeaderCodec.Session
import GzipHeaderCodec.Context
