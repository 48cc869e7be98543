import CBson.Basic
import CBson.Value
import CBson.Buffer
import CBson.Utf8
import CBson.Encoder
import CBson.Decoder
import CBson.ObjectId
import CBson.Keys
import CBson.Sim
import CBson.SizeCap
import CBson.CheckKeys
import CBson.MoveId
import CBson.ObjectIdRun
import CBson.Wire
import CBson.EncoderWire
import CBson.DecoderWire
import CBson.RoundTrip
import CBson.ObjectIdHex
import CBson.RegexFlags
import CBson.Release
import CBson.WireCanonical
import CBson.DecoderGrammar
import CBson.Encodable
import CBson.Integers
import CBson.Reencode
import CBson.DecoderShape
import CBson.DecoderProgress
