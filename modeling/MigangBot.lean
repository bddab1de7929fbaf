import MigangBot.Lib.Exceptions
import MigangBot.Lib.Runs
import MigangBot.Lib.Maps
import MigangBot.Lib.Tries
import MigangBot.Text
import MigangBot.JsonValue
import MigangBot.ApiTypes
import MigangBot.EchoCorrelation
import MigangBot.Waiters
import MigangBot.WaiterDelivery
import MigangBot.WaiterInterleaving
import MigangBot.CommandTrie
import MigangBot.Lib.Rewriting
import MigangBot.MessageUtility
import MigangBot.Permission
import MigangBot.Services
import MigangBot.ServiceStatus
import MigangBot.EventHandling
import MigangBot.MessageHandling
import MigangBot.MessageViews
import MigangBot.DispatchAuthorisation
import MigangBot.DispatchIsolation
import MigangBot.CommandArgument
import MigangBot.BotProcess
import MigangBot.JsonReads
import MigangBot.WellFormedEvents
import MigangBot.NoticeDispatch
import MigangBot.Containment
import MigangBot.ServiceManagement
import MigangBot.RestartEquivalence
import MigangBot.ServiceCommands
import MigangBot.Lib.Multimaps
import MigangBot.Scheduling
import MigangBot.SchedulerSteps
import MigangBot.SchedulerBookkeeping
import MigangBot.SchedulerRegistration
import MigangBot.SchedulerRemoval
import MigangBot.CronSchedule
import MigangBot.ConnectionLifecycle
import MigangBot.ConnectionPools
import MigangBot.PoolExclusivity
import MigangBot.Lib.Memories
import MigangBot.WeiboSpider
import MigangBot.WeiboPush
import MigangBot.WeiboRepetition
import MigangBot.MessageEscaping
import MigangBot.Mentions
import MigangBot.Blacklists
import MigangBot.ApiCalls
import MigangBot.BotManagement
import MigangBot.RequestAnswers
import MigangBot.StrictMode
import MigangBot.GroupCleaning
import MigangBot.Feedback
import MigangBot.Lib.Effects
import MigangBot.EorzeanWeather
import MigangBot.WeatherRuns
import MigangBot.WeatherConsistency
import MigangBot.Lib.Courses
import MigangBot.WeatherCourses
import MigangBot.WeatherAtomicity
import MigangBot.FeedbackSending
import MigangBot.Zhanbu
import MigangBot.ZhanbuTermination
import MigangBot.ZhanbuSeed
import MigangBot.ZhanbuStability
import MigangBot.WeatherForecast
import MigangBot.WeatherRates
import MigangBot.CityLists
import MigangBot.WhiteBlack
import MigangBot.Lib.Expiry
import MigangBot.RedisCommand
import MigangBot.BilibiliParser
import MigangBot.BilibiliCache
import MigangBot.BilibiliRepetition
import MigangBot.BilibiliQuery
import MigangBot.HtmlEntities
import MigangBot.MessageSplit
import MigangBot.StripFamily
import MigangBot.Gzip
import MigangBot.Lib.Utf16
import MigangBot.Utf8Conversion
import MigangBot.ZhanbuLayout
import MigangBot.Broadcast
import MigangBot.Lib.Cuts
import MigangBot.ReplaceAll
import MigangBot.Lib.Forests
import MigangBot.HtmlTree
import MigangBot.HtmlSearch
import MigangBot.HtmlText
import MigangBot.Lib.Calendar
import MigangBot.LocalTime
import MigangBot.CronSearch
import MigangBot.CronStages
import MigangBot.CronExactness
import MigangBot.CronNext
import MigangBot.CronExpression
import MigangBot.CronGrammar
import MigangBot.CronText
import MigangBot.CronTasks
import MigangBot.SchedulerThread
import MigangBot.Registrar
import MigangBot.MessageDispatch
import MigangBot.Kicked
import MigangBot.ZhanbuDays
import MigangBot.CityChoice
import MigangBot.Lib.OrderedMaps
import MigangBot.ServiceListing
import MigangBot.Futures
