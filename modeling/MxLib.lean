import MxLib.Http.HeaderBase
import MxLib.Http.MultipartParts
import MxLib.Http.UrlFidelity
import MxLib.Http.UrlSeparators
import MxLib.Http.WebSockets.ReceiveBounds
import MxLib.Http.WebSockets.ReceiveViolations
import MxLib.Http.WebSockets.Send
import MxLib.Http.HttpParser
import MxLib.Http.HttpCookieRoundTrip
import MxLib.Http.QuotedString
import MxLib.Http.HttpHeaderEntContentDisposition
import MxLib.Http.HttpHeaderEntContentLength
import MxLib.Http.HttpHeaderRespWwwProxyAuthenticate
import MxLib.Http.HttpHeaderReqAccept
import MxLib.Crypto.Base64
import MxLib.Strings.Utf8RoundTrip
import MxLib.Http.HttpBodyParserUrlEncodedForm
import MxLib.CircularBuffer
import MxLib.DateTime.Calendar
import MxLib.Comm.IpcTransport
import MxLib.Http.HtmlRoundTrip
import MxLib.Http.PunycodeRoundTrip
import MxLib.Http.UrlAuthority
import MxLib.Http.UrlCodec
import MxLib.Http.UrlReduce
import MxLib.Http.HttpCookieDomain
import MxLib.Http.HttpCookieMaxAge
import MxLib.Http.HttpHeaderArray
import MxLib.CircularBuffer.ReArrange
import MxLib.Comm.HostResolverFormat
import MxLib.Http.HttpBodyParserUrlEncodedCalls
import MxLib.Http.HttpBodyParserFormFields
import MxLib.Http.WebSockets.SendFailures
import MxLib.Http.MultipartLimits
import MxLib.Strings.ConcatN
import MxLib.Strings.Utf8Encoding
import MxLib.Strings.Utf8Compare
import MxLib.Http.HtmlReferences
import MxLib.Http.PunycodeEncoding
import MxLib.Http.HttpHeaderReqRange
import MxLib.ArrayList
import MxLib.MemoryStream
import MxLib.Http.WebSockets.FrameCodec
import MxLib.Http.HttpParserLimits
import MxLib.DateTime.Add
import MxLib.Comm.IpcWrap
import MxLib.Comm.IpcSendFailures
import MxLib.TimedEvent.ProcessQueue
import MxLib.Http.EntityTags
import MxLib.Http.ParseDate
import MxLib.DateTime.TimeSpanTicks
import MxLib.DateTime.UnixTime
import MxLib.DateTime.TimeSpanText
import MxLib.DateTime.TimeSpanFormat
import MxLib.Http.HttpHeaderEntContentRange
import MxLib.Http.QualityLists
import MxLib.Http.HttpHeaderRespCacheControl
import MxLib.Http.HeaderMerge
import MxLib.Http.CacheControlRecord
import MxLib.Http.MimeType
import MxLib.DateTime.DayNumbers
import MxLib.DateTime.TwelveHour
import MxLib.DateTime.OrdinalDate
import MxLib.Crypto.Crc32
import MxLib.LinkedList.Histories
import MxLib.Http.PunycodeNumbers
import MxLib.JsHttpServer.SessionPlugin
import MxLib.Strings.CStringLists
import MxLib.JsLib.RelativeTimes
import MxLib.Comm.ProxyEntries
