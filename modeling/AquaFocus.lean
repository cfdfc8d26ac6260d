import AquaFocus.Lib.Civil
import AquaFocus.Lib.DateTime
import AquaFocus.Lib.Loop
import AquaFocus.Lib.Lagging
import AquaFocus.Lib.Calls
import AquaFocus.Lib.Runs
import AquaFocus.Lib.Tally
import AquaFocus.Lib.Interleave
import AquaFocus.Lib.Comparator
import AquaFocus.Lib.LinkedMap
import AquaFocus.Lib.DocTree
import AquaFocus.AppTask
import AquaFocus.TaskUtils
import AquaFocus.Reschedule
import AquaFocus.World
import AquaFocus.AddTask
import AquaFocus.Completion
import AquaFocus.Reward
import AquaFocus.SteadyClock
import AquaFocus.ClockDrift
import AquaFocus.TaskOps
import AquaFocus.Reminders
import AquaFocus.Settings
import AquaFocus.TaskStore
import AquaFocus.Database
import AquaFocus.Purchase
import AquaFocus.ShopScreen
import AquaFocus.TagList
import AquaFocus.NullChecks
import AquaFocus.CountDownHelper
import AquaFocus.CountDown
import AquaFocus.CountUp
import AquaFocus.FocusTime
import AquaFocus.FocusSaves
import AquaFocus.Overlap
import AquaFocus.OverlapReads
import AquaFocus.Ledger
import AquaFocus.NextDay
import AquaFocus.UserFields
import AquaFocus.MonthlyTasks
import AquaFocus.FocusReward
import AquaFocus.FocusHours
import AquaFocus.FocusSplit
import AquaFocus.FocusLate
import AquaFocus.ListViews
import AquaFocus.TaskOrder
import AquaFocus.DayLookup
import AquaFocus.Calendar
import AquaFocus.CalendarLoad
import AquaFocus.TaskMap
import AquaFocus.Erasing
import AquaFocus.DeleteTask
import AquaFocus.TagFrame
import AquaFocus.Daylight
import AquaFocus.DaylightSearch
import AquaFocus.Statistics
import AquaFocus.Lib.Binary64
import AquaFocus.NoTasks
import AquaFocus.WeeklyChart
import AquaFocus.Balance
import AquaFocus.FocusStore
import AquaFocus.FocusCharts
import AquaFocus.Accounts
import AquaFocus.Lib.Walks
import AquaFocus.Recurrence
import AquaFocus.PendingReminders
import AquaFocus.EditForm
import AquaFocus.Earnings
import AquaFocus.Aquarium
import AquaFocus.Sessions
import AquaFocus.Handlers
import AquaFocus.SeparateTasks
import AquaFocus.Lib.Listing
import AquaFocus.TaskPages
import AquaFocus.PageMoves
import AquaFocus.PageLists
