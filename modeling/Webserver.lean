import Webserver.Support.ByteString
import Webserver.Support.CxxString
import Webserver.Support.BoundedLoop
import Webserver.Support.OrderedMap
import Webserver.Support.Numeral
import Webserver.Config.ConfigTree
import Webserver.Config.ConfigLexer
import Webserver.Config.ConfigParser
import Webserver.Config.ConfigGrammar
import Webserver.Config.ConfigCursor
import Webserver.Config.ConfigLanguage
import Webserver.Config.ConfigText
import Webserver.Config.LineEndings
import Webserver.Config.TreeShape
import Webserver.Config.Diagnostics
import Webserver.Config.AcceptedFront
import Webserver.Support.IncrementalMachine
import Webserver.Http.Request
import Webserver.Http.RequestPath
import Webserver.Http.RequestGrammar
import Webserver.Http.Response
import Webserver.Http.SetUri
import Webserver.Http.StatusLine
import Webserver.Http.ResponseText
import Webserver.Http.RequestMachine
import Webserver.Http.RequestStates
import Webserver.Http.RequestLanguage
import Webserver.Http.ReferencePath
import Webserver.Http.ParserCalls
import Webserver.Http.BodyFraming
import Webserver.Server.RequestHandler
import Webserver.Server.ServerConfig
import Webserver.Server.ServerSettings
import Webserver.Server.Registration
import Webserver.Server.Dispatch
import Webserver.Server.BlockOrder
import Webserver.Http.Completion
import Webserver.Server.Session
import Webserver.Server.EarlyRejection
import Webserver.Server.QueryRouting
import Webserver.StaticFile.LuaHeaders
import Webserver.StaticFile.LuaRequest
import Webserver.StaticFile.LuaScanner
import Webserver.StaticFile.LuaTemplate
import Webserver.StaticFile.ScannerProgress
import Webserver.StaticFile.ScannerText
import Webserver.Support.LexicalPath
import Webserver.StaticFile.StaticFileHandler
import Webserver.StaticFile.LuaFunctions
import Webserver.Support.LongBracket
import Webserver.StaticFile.StaticText
import Webserver.StaticFile.PageFraming
import Webserver.StaticFile.ContentType
import Webserver.StaticFile.DocumentRoot
import Webserver.StaticFile.QueryFile
import Webserver.StaticFile.FormData
import Webserver.StaticFile.FormSegments
import Webserver.StaticFile.QuerySplit
import Webserver.StaticFile.FileReading
import Webserver.Support.LineEdit
import Webserver.Support.ReplaceAll
import Webserver.ReverseProxy.ReverseProxyHandler
import Webserver.ReverseProxy.ForwardedUri
import Webserver.ReverseProxy.LinkRewriting
import Webserver.ReverseProxy.ProxySafety
import Webserver.ReverseProxy.ProxyState
import Webserver.ReverseProxy.RemoteStatus
import Webserver.ReverseProxy.LocationHeader
import Webserver.ReverseProxy.RedirectTarget
import Webserver.ReverseProxy.RedirectLoop
import Webserver.Http.HeaderBlock
import Webserver.ReverseProxy.HeaderEdit
import Webserver.ReverseProxy.HeaderRewriting
import Webserver.ReverseProxy.SentUri
import Webserver.Server.HandleRequest
import Webserver.Server.History
import Webserver.Support.CriticalSection
import Webserver.Server.SharedHistory
import Webserver.Support.HtmlReader
import Webserver.Server.StatusPage
import Webserver.Server.SharedProgress
import Webserver.Support.Transducer
import Webserver.Server.HandlerRegistry
import Webserver.Server.Main
import Webserver.Server.ServerRun
import Webserver.Server.Isolation
import Webserver.Server.SequentialHistory
import Webserver.Server.Exchange
import Webserver.Server.PageExchange
import Webserver.Server.ProxiedServer
